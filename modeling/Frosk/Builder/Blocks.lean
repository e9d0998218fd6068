import Mathlib.Tactic
import Frosk.Lib.Run
import Frosk.Lib.Dll
import Frosk.Builder.Definitions

/-!
# The image builder: nodes of metadata blocks

In the first metadata block nodes are cut one after another from one free node, which
is the last of the block. Once a request is larger than what is left, `new_nodeh` makes
a branch node and a new block, but then cuts the request from the branch node and not
from the free node of the new block.

Main result: `tiled_iff`, over every run of requests: the blocks are tiled by their nodes
after each request, exactly if the sizes of all nodes add up to no more than the first
block has behind its header.
-/

namespace Frosk.Builder

open Lib Fs

-- ---------------------------------------------------------------------------
-- What a block looks like
-- ---------------------------------------------------------------------------

/-- Where a node begins in its block, which is cut into entries. -/
def State.place (s : State) (n : Ptr) : Nat :=
  (s.node n).ptr / 2 ^ (s.metaAt (s.node n).location).shift % 0x100 * s.entrySize

/-- The nodes lie one behind the other, from `a` to `b`. -/
def Tiles (s : State) : Nat → List Ptr → Nat → Prop
  | a, [], b => a = b
  | a, n :: ns, b => s.place n = a ∧ 0 < (s.node n).size ∧ Tiles s (a + (s.node n).size) ns b

/-- Where the nodes of a block begin: only the first has a header. -/
def State.behindHeader (s : State) (m : Ptr) : Nat :=
  if (s.metaAt m).shift = 0 then s.hdrSize else 0

/-- The nodes of the block `m`, in order. -/
structure InBlock (s : State) (m : Ptr) (ns : List Ptr) : Prop where
  all   : ∀ n, n ∈ ns ↔ n ∈ s.nodes ∧ (s.node n).location = m
  first : (s.metaAt m).first = ns.headD NULL
  links : Linked (fun n => (s.node n).prev) (fun n => (s.node n).next) NULL ns NULL
  tiles : Tiles s (s.behindHeader m) ns s.blockSize

/-- The free list from `p` on. -/
def FreeList (s : State) : Ptr → List Ptr → Prop
  | p, [] => p = NULL
  | p, n :: l => p = n ∧ n ≠ NULL ∧ FreeList s (s.node n).freeNext l

structure Tiled (s : State) : Prop where
  blocks : ∀ m ∈ s.metas, ∃ ns, InBlock s m ns
  free   : ∃ l, FreeList s s.freeMeta l ∧
    ∀ n, n ∈ l ↔ n ∈ s.nodes ∧ (s.node n).type = .FREE

-- ---------------------------------------------------------------------------
-- Runs
-- ---------------------------------------------------------------------------

/-- A block size that is cut into 256 entries. -/
structure BlockSize where
  val   : Nat
  whole : val % 0x100 = 0
  pos   : 0 < val
  int   : val < 0x80000000

def BlockSize.entry (b : BlockSize) : Nat := b.val / 0x100

/-- What a caller of `new_node` asks for: a size whose node fits in a block, and the
type it gives to the node. -/
structure Request (b : BlockSize) where
  size  : Nat
  type  : FnodeType
  given : type ≠ .FREE
  fits  : align (size + fnodeAddSize) b.entry ≤ b.val

/-- The size of the node. -/
def Request.aligned {b : BlockSize} (r : Request b) : Nat := align (r.size + fnodeAddSize) b.entry

/-- The request, and the type that the caller stores. -/
def request {b : BlockSize} (E : Env) (k : Nat) (r : Request b) (s : State) :
    Option (State × Ptr) := do
  let (s, n) ← newNode E k r.size s
  some (s.modify n fun v => { v with type := r.type }, n)

def Step {b : BlockSize} (E : Env) (s : State) (r : Request b) (s' : State) (n : Ptr) : Prop :=
  ∃ k, request E k r s = some (s', n)

def State.empty (b : BlockSize) (lba : Nat) (node : Ptr → Node) (metaAt : Ptr → Meta) : State :=
  ⟨node, [], metaAt, [], b.val, lba, NULL⟩

/-- The first metadata block, as `parse_fsd` makes it. -/
def State.start (E : Env) (b : BlockSize) (lba : Nat) (node : Ptr → Node) (metaAt : Ptr → Meta) :
    State :=
  ((newMeta E NULL (State.empty b lba node metaAt)).map Prod.fst).getD
    (State.empty b lba node metaAt)

-- ---------------------------------------------------------------------------
-- Cutting a node in two
-- ---------------------------------------------------------------------------

/-- The state after `sz` bytes were cut from the node `x`. -/
def State.split (s : State) (x new : Ptr) (sz : Nat) : State :=
  let f := s.node x
  { s with
    nodes := new :: s.nodes
    node := fun y =>
      if y = x then { f with
        ptr := (f.ptr + sz / s.entrySize * 2 ^ (s.metaAt f.location).shift) % uintSize
        size := (f.size + (uintSize - sz)) % uintSize
        prev := new }
      else if y = new then { s.node new with
        size := sz, ptr := f.ptr, location := f.location, prev := f.prev, next := x }
      else if y = f.prev ∧ f.prev ≠ NULL then { s.node y with next := new }
      else s.node y
    metaAt := if f.prev = NULL then
        Function.update s.metaAt f.location { s.metaAt f.location with first := new }
      else s.metaAt }

/-- If the node is not taken whole, `carve` is the split, or an assertion fails. -/
theorem carve_split (E : Env) {s : State} {x new : Ptr} {sz : Nat}
    (hnew : E.malloc.pick s.used = new) (hsize : (s.node x).size ≠ sz) (hx : new ≠ x)
    (hprev : (s.node x).prev ≠ x) (hprev' : (s.node x).prev ≠ new) :
    carve E sz x s = if ((s.node x).size + (uintSize - sz)) % uintSize % s.entrySize ≠ 0 then none
      else some (s.split x new sz, new) := by
  rw [carve, if_neg hsize]
  simp only [hnew, State.modify, State.entrySize, Function.update_self,
    Function.update_of_ne hx.symm]
  refine if_congr Iff.rfl rfl (congrArg some (Prod.ext ?_ rfl))
  by_cases hnull : (s.node x).prev = NULL
  · simp only [hnull, ne_eq, not_true, if_false, State.modifyMeta, State.split, if_true,
      Function.update_self, and_false, State.entrySize]
    congr 1
    funext y
    by_cases hy : y = x
    · simp [hy]
    · by_cases hy' : y = new
      · simp [hy', hx]
      · simp [hy, hy']
  · simp only [hnull, ne_eq, not_false_eq_true, if_true, State.split, if_false, and_true,
      State.entrySize]
    congr 1
    funext y
    by_cases hy : y = x
    · simp [hy, hprev.symm]
    · by_cases hy' : y = new
      · simp [hy', hx, hprev'.symm]
      · by_cases hy'' : y = (s.node x).prev
        · simp [hy'', hprev, hprev']
        · simp [hy, hy', hy'']

-- ---------------------------------------------------------------------------
-- Tilings
-- ---------------------------------------------------------------------------

/-- A row of nodes in two parts. -/
theorem tiles_append {s : State} {ns ms : List Ptr} {a c : Nat} :
    Tiles s a (ns ++ ms) c ↔ ∃ b, Tiles s a ns b ∧ Tiles s b ms c := by
  induction ns generalizing a with
  | nil =>
    constructor
    · intro h
      exact ⟨a, rfl, h⟩
    · rintro ⟨b, rfl, h⟩
      exact h
  | cons n ns ih =>
    constructor
    · rintro ⟨hplace, hpos, hrest⟩
      obtain ⟨b, h₁, h₂⟩ := ih.mp hrest
      exact ⟨b, ⟨hplace, hpos, h₁⟩, h₂⟩
    · rintro ⟨b, ⟨hplace, hpos, h₁⟩, h₂⟩
      exact ⟨hplace, hpos, ih.mpr ⟨b, h₁, h₂⟩⟩

/-- What the nodes tile depends on their places and sizes only. -/
theorem tiles_congr {s s' : State} {ns : List Ptr} {a b : Nat} (h : Tiles s a ns b)
    (hsame : ∀ n ∈ ns, s'.place n = s.place n ∧ (s'.node n).size = (s.node n).size) :
    Tiles s' a ns b := by
  induction ns generalizing a with
  | nil => exact h
  | cons n ns ih =>
    obtain ⟨hplace, hpos, hrest⟩ := h
    obtain ⟨hp, hs⟩ := hsame n List.mem_cons_self
    refine ⟨hp.trans hplace, hs.symm ▸ hpos, ?_⟩
    rw [hs]
    exact ih hrest fun n' hn' => hsame n' (List.mem_cons_of_mem _ hn')

theorem tiles_le {s : State} {ns : List Ptr} {a b : Nat} (h : Tiles s a ns b) : a ≤ b := by
  induction ns generalizing a with
  | nil => exact Nat.le_of_eq h
  | cons n ns ih => exact (Nat.le_add_right a _).trans (ih h.2.2)

/-- No node reaches beyond the end. -/
theorem tiles_within {s : State} {ns : List Ptr} {a b : Nat} (h : Tiles s a ns b) {n : Ptr}
    (hn : n ∈ ns) : s.place n + (s.node n).size ≤ b := by
  induction ns generalizing a with
  | nil => simp at hn
  | cons n' ns ih =>
    obtain ⟨hplace, _, hrest⟩ := h
    rcases List.mem_cons.mp hn with rfl | hn
    · rw [hplace]
      exact tiles_le hrest
    · exact ih hrest hn

/-- No node begins before the start. -/
theorem tiles_behind {s : State} {ns : List Ptr} {a b : Nat} (h : Tiles s a ns b) {n : Ptr}
    (hn : n ∈ ns) : a ≤ s.place n := by
  induction ns generalizing a with
  | nil => simp at hn
  | cons n' ns ih =>
    obtain ⟨hplace, _, hrest⟩ := h
    rcases List.mem_cons.mp hn with rfl | hn
    · exact hplace.ge
    · exact (Nat.le_add_right a _).trans (ih hrest hn)

-- ---------------------------------------------------------------------------
-- One block
-- ---------------------------------------------------------------------------

/-- Rounded up, a size is a multiple. -/
theorem align_mod (n e : Nat) : align n e % e = 0 := by
  rw [align, Nat.add_mod_right]
  exact Nat.sub_mod_eq_zero_of_mod_eq (by simp)

theorem align_pos (n : Nat) {e : Nat} (he : 0 < e) : 0 < align n e :=
  Nat.add_pos_right _ he

theorem BlockSize.entry_pos (b : BlockSize) : 0 < b.entry := by
  have hpos := b.pos
  have hwhole := b.whole
  unfold BlockSize.entry
  omega

/-- A block has `0x100` entries. -/
theorem BlockSize.val_eq (b : BlockSize) : b.val = 0x100 * b.entry := by
  have hwhole := b.whole
  unfold BlockSize.entry
  omega

/-- There is only the first block. The nodes `ns` are given out, and `rem` bytes are
left, in the free node `f` at its end. -/
structure Bump (b : BlockSize) (s : State) (m : Ptr) (ns : List Ptr) (f : Option Ptr) (rem : Nat) :
    Prop where
  size  : s.blockSize = b.val
  metas : s.metas = [m]
  shift : (s.metaAt m).shift = 0
  block : InBlock s m (ns ++ f.toList)
  nodup : (ns ++ f.toList).Nodup
  ours  : ∀ n ∈ s.nodes, (s.node n).location = m ∧ n ≠ NULL
  head  : s.freeMeta = f.getD NULL
  whole : rem % b.entry = 0
  rest  : ∀ x ∈ f, (s.node x).type = .FREE ∧ (s.node x).freeNext = NULL ∧
    (s.node x).freePrev = NULL ∧ (s.node x).size = rem ∧ 0 < rem ∧
    (s.node x).ptr * b.entry + rem = b.val
  full  : f = none → rem = 0
  low   : ∀ n ∈ ns, (s.node n).ptr < 0x100

variable {E : Env} {b : BlockSize} {s : State} {m x : Ptr} {ns : List Ptr} {f : Option Ptr}
  {rem : Nat}

theorem Bump.entry_eq (h : Bump b s m ns f rem) : s.entrySize = b.entry := by
  rw [State.entrySize, h.size]
  rfl

/-- The nodes of the block are those given out and the free one. -/
theorem Bump.mem_iff (h : Bump b s m ns f rem) (n : Ptr) : n ∈ ns ++ f.toList ↔ n ∈ s.nodes := by
  rw [h.block.all]
  exact ⟨fun hn => hn.1, fun hn => ⟨hn, (h.ours n hn).1⟩⟩

theorem Bump.rem_le (h : Bump b s m ns f rem) : rem ≤ b.val := by
  cases f with
  | none =>
    rw [h.full rfl]
    exact Nat.zero_le _
  | some x => exact Nat.le.intro ((Nat.add_comm ..).trans (h.rest x rfl).2.2.2.2.2)

/-- A block whose free room is in one piece at its end is tiled, once all types are set. -/
theorem Bump.tiled (h : Bump b s m ns f rem) (hgiven : ∀ n ∈ ns, (s.node n).type ≠ .FREE) :
    Tiled s := by
  constructor
  · intro m' hm'
    rw [h.metas, List.mem_singleton] at hm'
    exact ⟨_, hm' ▸ h.block⟩
  · refine ⟨f.toList, ?_, ?_⟩
    · cases f with
      | none => exact h.head
      | some x =>
        have hmem : x ∈ s.nodes := (h.mem_iff x).mp (by simp)
        exact ⟨h.head, (h.ours x hmem).2, (h.rest x rfl).2.1⟩
    · intro n
      rw [← h.mem_iff, List.mem_append]
      constructor
      · intro hn
        exact ⟨.inr hn, (h.rest n (Option.mem_toList.mp hn)).1⟩
      · rintro ⟨hn | hn, hfree⟩
        · exact absurd hfree (hgiven n hn)
        · exact hn

/-- `find_free` comes to the free node if there is room in it. -/
theorem Bump.findFree_fits (h : Bump b s m ns f rem) {sz : Nat} (hpos : 0 < sz) (hle : sz ≤ rem)
    (k : Nat) : ∃ x, f = some x ∧ findFree (k + 1) sz s = some x := by
  cases f with
  | none =>
    have hzero := h.full rfl
    omega
  | some x =>
    obtain ⟨hfree, _, _, hsize, _, _⟩ := h.rest x rfl
    have hhead : s.freeMeta = x := h.head
    have hround : findFreeBody s sz x = .inr (some x) := by
      rw [findFreeBody, if_neg]
      rintro ⟨_, hlt⟩
      omega
    refine ⟨x, rfl, ?_⟩
    rw [findFree, hhead, if_neg (fun hn => hn.2 hfree), iterate_succ_inr hround]
    rfl

/-- If there is no room, `find_free` looks through the one node and finds none. -/
theorem Bump.findFree_full (h : Bump b s m ns f rem) {sz : Nat} (hlt : rem < sz) (k : Nat) :
    findFree (k + 2) sz s = some NULL := by
  have hnull : findFreeBody s sz NULL = .inr (some NULL) := by
    rw [findFreeBody, if_neg]
    exact fun hn => hn.1 rfl
  cases f with
  | none =>
    have hhead : s.freeMeta = NULL := h.head
    rw [findFree, hhead, if_neg (fun hn => hn.1 rfl), iterate_succ_inr hnull]
    rfl
  | some x =>
    obtain ⟨hfree, hnext, _, hsize, _, _⟩ := h.rest x rfl
    have hhead : s.freeMeta = x := h.head
    have hmem : x ∈ s.nodes := (h.mem_iff x).mp (by simp)
    have hround : findFreeBody s sz x = .inl NULL := by
      rw [findFreeBody, if_pos ⟨(h.ours x hmem).2, by omega⟩, if_neg (fun hn => hn hfree), hnext]
    rw [findFree, hhead, if_neg (fun hn => hn.2 hfree), iterate_succ_inl hround,
      iterate_succ_inr hnull]
    rfl

-- ---------------------------------------------------------------------------
-- A request that fits
-- ---------------------------------------------------------------------------

/-- The list of a block depends on these fields only. -/
theorem inBlock_congr {s s' : State} {m : Ptr} {l : List Ptr} (h : InBlock s m l)
    (hnodes : s'.nodes = s.nodes) (hmeta : s'.metaAt = s.metaAt) (hsize : s'.blockSize = s.blockSize)
    (hnode : ∀ n, (s'.node n).location = (s.node n).location ∧ (s'.node n).ptr = (s.node n).ptr ∧
      (s'.node n).size = (s.node n).size ∧ (s'.node n).next = (s.node n).next ∧
      (s'.node n).prev = (s.node n).prev) : InBlock s' m l := by
  have hentry : s'.entrySize = s.entrySize := congrArg (· / 0x100) hsize
  refine ⟨?_, ?_, ?_, ?_⟩
  · intro n
    rw [hnodes, (hnode n).1]
    exact h.all n
  · rw [hmeta]
    exact h.first
  · have hprev : (fun n => (s'.node n).prev) = fun n => (s.node n).prev :=
      funext fun n => (hnode n).2.2.2.2
    have hnext : (fun n => (s'.node n).next) = fun n => (s.node n).next :=
      funext fun n => (hnode n).2.2.2.1
    rw [hprev, hnext]
    exact h.links
  · have hbegin : s'.behindHeader m = s.behindHeader m := by
      rw [State.behindHeader, State.behindHeader, hmeta, State.hdrSize, State.hdrSize, hentry]
    rw [hbegin, hsize]
    refine tiles_congr h.tiles fun n _ => ⟨?_, (hnode n).2.2.1⟩
    rw [State.place, State.place, hmeta, (hnode n).1, (hnode n).2.1, hentry]

/-- A place of the block that is not its end has an index of eight bits. -/
theorem BlockSize.ptr_lt {p r : Nat} (b : BlockSize) (h : p * b.entry + r = b.val) (hr : 0 < r) :
    p < 0x100 := by
  by_contra hle
  have hmul : 0x100 * b.entry ≤ p * b.entry := Nat.mul_le_mul_right _ (Nat.le_of_not_lt hle)
  have hval := b.val_eq
  omega

/-- What a request leaves: the node `n` of `sz` bytes, where the free node was. -/
structure Cut (b : BlockSize) (s : State) (m : Ptr) (ns : List Ptr) (rem sz : Nat) (s' : State)
    (n : Ptr) : Prop where
  bump : ∃ f', Bump b s' m (ns ++ [n]) f' (rem - sz)
  ptr  : (s'.node n).ptr * b.entry + rem = b.val
  size : (s'.node n).size = sz
  kept : ∀ y ∈ ns, ∃ next, s'.node y = { s.node y with next := next }
  lba  : s'.nextLba = s.nextLba ∧ (s'.metaAt m).lba = (s.metaAt m).lba

/-- The type of a node that is given out may change. -/
theorem Bump.retype (h : Bump b s m ns f rem) {n : Ptr} (hn : n ∈ ns) (t : FnodeType) :
    Bump b (s.modify n fun v => { v with type := t }) m ns f rem := by
  have hnode : ∀ y, (s.modify n fun v => { v with type := t }).node y =
      { s.node y with type := if y = n then t else (s.node y).type } := by
    intro y
    by_cases hy : y = n
    · simp [State.modify, hy]
    · simp [State.modify, hy]
  refine ⟨h.size, h.metas, h.shift, ?_, h.nodup, fun y hy => ?_, h.head, h.whole, fun x hx => ?_,
    h.full, fun y hy => ?_⟩
  · refine inBlock_congr h.block rfl rfl rfl ?_
    intro y
    rw [hnode]
    exact ⟨rfl, rfl, rfl, rfl, rfl⟩
  · rw [hnode]
    exact h.ours y hy
  · have hne : x ≠ n := by
      rintro rfl
      exact (List.nodup_append.mp h.nodup).2.2 x hn x (Option.mem_toList.mpr hx) rfl
    rw [hnode, if_neg hne]
    exact h.rest x hx
  · rw [hnode]
    exact h.low y hy

/-- A request for all that is left takes the free node itself. -/
theorem Bump.carve_whole (h : Bump b s m ns (some x) rem) :
    ∃ s', carve E rem x s = some (s', x) ∧ Cut b s m ns rem rem s' x := by
  obtain ⟨hfree, hnext, hprev, hsize, hpos, hptr⟩ := h.rest x rfl
  have hlist : ns ++ [x] ++ (none : Option Ptr).toList = ns ++ (some x).toList := by simp
  refine ⟨{ s with freeMeta := NULL }, ?_, ⟨none, h.size, h.metas, h.shift, ?_, ?_, h.ours, rfl, ?_,
    nofun, fun _ => Nat.sub_self _, fun y hy => ?_⟩, hptr, hsize, fun y _ => ⟨_, rfl⟩, rfl, rfl⟩
  · rw [carve, if_pos hsize]
    simp only [hprev, hnext, if_true]
  · rw [hlist]
    exact inBlock_congr h.block rfl rfl rfl fun n => ⟨rfl, rfl, rfl, rfl, rfl⟩
  · rw [hlist]
    exact h.nodup
  · rw [Nat.sub_self]
    exact Nat.zero_mod _
  · rcases List.mem_append.mp hy with hy | hy
    · exact h.low y hy
    · rw [List.mem_singleton.mp hy]
      exact b.ptr_lt hptr hpos

/-- What the split of the free node has in store. -/
structure Splits (b : BlockSize) (s : State) (m : Ptr) (ns : List Ptr) (x new : Ptr)
    (rem sz : Nat) (s' : State) : Prop where
  nodes : s'.nodes = new :: s.nodes
  same  : s'.blockSize = s.blockSize ∧ s'.metas = s.metas ∧ s'.freeMeta = s.freeMeta
  shift : (s'.metaAt m).shift = (s.metaAt m).shift
  first : (s'.metaAt m).first = if ns = [] then new else (s.metaAt m).first
  cut   : s'.node new = { s.node new with
    size := sz, ptr := (s.node x).ptr, location := m, prev := ns.getLastD NULL, next := x }
  rest  : s'.node x = { s.node x with
    ptr := (s.node x).ptr + sz / b.entry, size := rem - sz, prev := new }
  other : ∀ y ∈ ns, s'.node y = { s.node y with
    next := if ns.getLast? = some y then new else (s.node y).next }

/-- A request for less cuts a new node off the free one: what the split makes of each field that the
rest of the allocator reads. -/
theorem Bump.splits (h : Bump b s m ns (some x) rem) {sz : Nat} (hlt : sz < rem) {new : Ptr}
    (hnew : new ∉ s.nodes) : Splits b s m ns x new rem sz (s.split x new sz) := by
  obtain ⟨hfree, hnext, hprev, hsize, hpos, hptr⟩ := h.rest x rfl
  have hmem : x ∈ s.nodes := (h.mem_iff x).mp (by simp)
  have hne : x ≠ new := fun hx => hnew (hx ▸ hmem)
  have hlinks := linked_append.mp h.block.links
  have hlast : (s.node x).prev = ns.getLastD NULL := hlinks.2.1
  have hnd := List.nodup_append.mp h.nodup
  have hns : ∀ y ∈ ns, y ∈ s.nodes := fun y hy => (h.mem_iff y).mp (List.mem_append_left _ hy)
  have hnull : ns.getLastD NULL = NULL ↔ ns = [] := by
    constructor
    · intro hnull
      by_contra hnil
      exact (h.ours _ (hns _ (getLastD_mem hnil NULL))).2 hnull
    · rintro rfl
      rfl
  have hloc : (s.node x).location = m := (h.ours x hmem).1
  have hbound := b.int
  have hrem : rem ≤ b.val := by omega
  constructor
  · rfl
  · exact ⟨rfl, rfl, rfl⟩
  · simp only [State.split]
    split
    · rw [hloc, Function.update_self]
    · rfl
  · simp only [State.split, hlast, hnull]
    split
    · rw [hloc, Function.update_self]
    · rfl
  · simp [State.split, hne.symm, hloc, hlast]
  · have hptr' : ((s.node x).ptr + sz / b.entry * 2 ^ 0) % uintSize = (s.node x).ptr + sz / b.entry := by
      rw [pow_zero, Nat.mul_one]
      refine Nat.mod_eq_of_lt ?_
      have hdiv : sz / b.entry * b.entry ≤ sz := Nat.div_mul_le_self ..
      have hlt' : (s.node x).ptr + sz / b.entry < 0x100 := by
        refine b.ptr_lt (r := b.val - ((s.node x).ptr + sz / b.entry) * b.entry) ?_ ?_
        · rw [Nat.add_mul]
          omega
        · rw [Nat.add_mul]
          omega
      unfold uintSize
      omega
    have hsize' : ((s.node x).size + (uintSize - sz)) % uintSize = rem - sz := by
      rw [hsize]
      unfold uintSize
      omega
    simp only [State.split, if_true, hloc, h.shift, h.entry_eq, hptr', hsize']
  · intro y hy
    have hyx : y ≠ x := fun hyx => hnd.2.2 y hy x (by simp) hyx
    have hyn : y ≠ new := fun hyn => hnew (hyn ▸ hns y hy)
    have hwhere : (y = (s.node x).prev ∧ (s.node x).prev ≠ NULL) ↔ ns.getLast? = some y := by
      have hnil : ns ≠ [] := List.ne_nil_of_mem hy
      rw [hlast, getLast?_eq_some_iff hnil NULL]
      exact ⟨fun hn => hn.1, fun hn => ⟨hn, fun hz => hnil (hnull.mp hz)⟩⟩
    simp only [State.split, if_neg hyx, if_neg hyn, hwhere]
    split
    · rfl
    · rfl

/-- After the split the nodes cover the block as before, the new one before what is left. -/
theorem Splits.tiles (h : Bump b s m ns (some x) rem) {sz : Nat} (hpos : 0 < sz) (hlt : sz < rem)
    (hwhole : sz % b.entry = 0) {new : Ptr} {s' : State}
    (hs : Splits b s m ns x new rem sz s') :
    Tiles s' (s'.behindHeader m) (ns ++ [new, x]) s'.blockSize := by
  obtain ⟨-, -, -, hsize, hrem, hptr⟩ := h.rest x rfl
  have hentry : s'.entrySize = s.entrySize := congrArg (· / 0x100) hs.same.1
  have hbegin : s'.behindHeader m = s.behindHeader m := by
    rw [State.behindHeader, State.behindHeader, hs.shift, State.hdrSize, State.hdrSize, hentry]
  have hloc : (s.node x).location = m := (h.ours x ((h.mem_iff x).mp (by simp))).1
  have hplace : ∀ n, (s'.node n).location = m →
      s'.place n = (s'.node n).ptr % 0x100 * b.entry := by
    intro n hn
    rw [State.place, hn, hs.shift, h.shift, hentry, h.entry_eq, pow_zero, Nat.div_one]
  have hold : s.place x = (s.node x).ptr * b.entry := by
    rw [State.place, hloc, h.shift, h.entry_eq, pow_zero, Nat.div_one,
      Nat.mod_eq_of_lt (b.ptr_lt hptr hrem)]
  have hparts : sz / b.entry * b.entry = sz := by
    have hdiv := Nat.div_add_mod sz b.entry
    rw [Nat.mul_comm]
    omega
  have hptr' : ((s.node x).ptr + sz / b.entry) * b.entry + (rem - sz) = b.val := by
    rw [Nat.add_mul, hparts]
    omega
  obtain ⟨a, hgiven, hx, -, hend⟩ := tiles_append.mp h.block.tiles
  rw [hbegin]
  refine tiles_append.mpr ⟨a, tiles_congr hgiven fun n hn => ?_, ?_, ?_, ?_, ?_, ?_⟩
  · have hother := hs.other n hn
    have hn' : (s.node n).location = m :=
      (h.ours n ((h.mem_iff n).mp (List.mem_append_left _ hn))).1
    rw [State.place, State.place, hother, hentry]
    exact ⟨by rw [hn', hs.shift], rfl⟩
  · rw [hplace new (by rw [hs.cut]), hs.cut, Nat.mod_eq_of_lt (b.ptr_lt hptr hrem), ← hold]
    exact hx
  · rw [hs.cut]
    exact hpos
  · rw [hplace x (by rw [hs.rest]; exact hloc), hs.rest, hs.cut,
      Nat.mod_eq_of_lt (b.ptr_lt hptr' (by omega)), Nat.add_mul, hparts, ← hold, hx]
  · rw [hs.rest]
    exact Nat.sub_pos_of_lt hlt
  · have hend' : a + (s.node x).size = s.blockSize := hend
    rw [hs.rest, hs.cut, hs.same.1]
    show a + sz + (rem - sz) = s.blockSize
    omega

/-- The new node is linked in before what is left. -/
theorem Splits.links (h : Bump b s m ns (some x) rem) {sz : Nat} {new : Ptr}
    {s' : State} (hs : Splits b s m ns x new rem sz s') :
    Linked (fun n => (s'.node n).prev) (fun n => (s'.node n).next) NULL (ns ++ [new, x]) NULL := by
  obtain ⟨hgiven, -, hnext, -⟩ := linked_append.mp h.block.links
  have hnd := (List.nodup_append.mp h.nodup).1
  refine linked_append.mpr ⟨linked_newer hgiven hnd (fun y hy => ?_) (fun y hy => ?_), ?_, ?_, ?_, ?_,
    trivial⟩
  · rw [hs.other y hy]
  · rw [hs.other y hy]
    rfl
  · exact congrArg Node.prev hs.cut
  · exact congrArg Node.next hs.cut
  · exact congrArg Node.prev hs.rest
  · exact (congrArg Node.next hs.rest).trans hnext

/-- So the free room is again in one piece at the end, smaller by the request. -/
theorem Splits.bump (h : Bump b s m ns (some x) rem) {sz : Nat} (hpos : 0 < sz) (hlt : sz < rem)
    (hwhole : sz % b.entry = 0) {new : Ptr} (hnew : new ∉ s.nodes) (hnull : new ≠ NULL)
    {s' : State} (hs : Splits b s m ns x new rem sz s') :
    Bump b s' m (ns ++ [new]) (some x) (rem - sz) := by
  obtain ⟨hfree, hnext, hprev, hsize, hrem, hptr⟩ := h.rest x rfl
  have hmem : x ∈ s.nodes := (h.mem_iff x).mp (by simp)
  have hlist : ns ++ [new] ++ (some x).toList = ns ++ [new, x] := by simp
  have hloc : ∀ n ∈ s'.nodes, (s'.node n).location = m ∧ n ≠ NULL := by
    intro n hn
    rw [hs.nodes] at hn
    rcases List.mem_cons.mp hn with rfl | hn
    · rw [hs.cut]
      exact ⟨rfl, hnull⟩
    · refine ⟨?_, (h.ours n hn).2⟩
      rcases List.mem_append.mp ((h.mem_iff n).mpr hn) with hgiven | hx
      · rw [hs.other n hgiven]
        exact (h.ours n hn).1
      · rw [List.mem_singleton.mp hx, hs.rest]
        exact (h.ours x hmem).1
  have hmem' : ∀ n, n ∈ ns ++ [new, x] ↔ n ∈ s'.nodes := by
    intro n
    rw [hs.nodes, List.mem_cons, ← h.mem_iff]
    simp only [List.mem_append, List.mem_cons, Option.toList_some, List.not_mem_nil, or_false]
    exact ⟨fun hn => hn.elim (fun h => .inr (.inl h)) fun h => h.imp_right .inr,
      fun hn => hn.elim (fun h => .inr (.inl h)) fun h => h.imp_right .inr⟩
  refine ⟨hs.same.1.trans h.size, hs.same.2.1.trans h.metas, hs.shift.trans h.shift, ?_, ?_, hloc,
    hs.same.2.2.trans h.head, ?_, ?_, nofun, fun y hy => ?_⟩
  · rw [hlist]
    refine ⟨?_, ?_, Splits.links h hs, Splits.tiles h hpos hlt hwhole hs⟩
    · intro n
      rw [hmem' n]
      exact ⟨fun hn => ⟨hn, (hloc n hn).1⟩, fun hn => hn.1⟩
    · rw [hs.first]
      have hfirst := h.block.first
      cases ns with
      | nil => rfl
      | cons y ys => exact hfirst
  · rw [hlist, List.nodup_middle]
    exact List.nodup_cons.mpr ⟨fun hn => hnew ((h.mem_iff new).mp hn), h.nodup⟩
  · have hrest := h.whole
    exact Nat.sub_mod_eq_zero_of_mod_eq (hrest.trans hwhole.symm)
  · intro y hy
    obtain rfl := Option.mem_some_iff.mp hy
    rw [hs.rest]
    refine ⟨hfree, hnext, hprev, rfl, Nat.sub_pos_of_lt hlt, ?_⟩
    show ((s.node x).ptr + sz / b.entry) * b.entry + (rem - sz) = b.val
    have hdiv := Nat.div_add_mod sz b.entry
    rw [Nat.add_mul, Nat.mul_comm (sz / b.entry)]
    omega
  · rcases List.mem_append.mp hy with hy | hy
    · rw [hs.other y hy]
      exact h.low y hy
    · rw [List.mem_singleton.mp hy, hs.cut]
      exact b.ptr_lt hptr hrem

/-- A request for less than is left takes a new node, and the rest stays free. -/
theorem Bump.carve_part (h : Bump b s m ns (some x) rem) {sz : Nat} (hpos : 0 < sz) (hlt : sz < rem)
    (hwhole : sz % b.entry = 0) :
    ∃ s' n, carve E sz x s = some (s', n) ∧ Cut b s m ns rem sz s' n := by
  obtain ⟨hfree, hnext, hprev, hsize, hrem, hptr⟩ := h.rest x rfl
  obtain ⟨new, hnew⟩ : ∃ new, E.malloc.pick s.used = new := ⟨_, rfl⟩
  have hmem : x ∈ s.nodes := (h.mem_iff x).mp (by simp)
  have hfresh : new ∉ s.nodes := by
    rw [← hnew]
    exact fun hn => E.malloc.fresh s.used (List.mem_append_left _ hn)
  have hnull : new ≠ NULL := hnew ▸ E.malloc.ne_null s.used
  have hnx : new ≠ x := fun hx => hfresh (hx ▸ hmem)
  have hlast : (s.node x).prev = ns.getLastD NULL := (linked_append.mp h.block.links).2.1
  have hbefore : (s.node x).prev = NULL ∨ (s.node x).prev ∈ ns := by
    rw [hlast]
    by_cases hnil : ns = []
    · exact .inl (by rw [hnil]; rfl)
    · exact .inr (getLastD_mem hnil NULL)
  have hprev₁ : (s.node x).prev ≠ x := by
    rcases hbefore with hb | hb
    · rw [hb]
      exact (h.ours x hmem).2.symm
    · exact (List.nodup_append.mp h.nodup).2.2 _ hb x (by simp)
  have hprev₂ : (s.node x).prev ≠ new := by
    rcases hbefore with hb | hb
    · rw [hb]
      exact hnull.symm
    · exact fun hn => hfresh (hn ▸ (h.mem_iff _).mp (List.mem_append_left _ hb))
  have hleft : ((s.node x).size + (uintSize - sz)) % uintSize % s.entrySize = 0 := by
    have hbound := b.int
    have hsub : ((s.node x).size + (uintSize - sz)) % uintSize = rem - sz := by
      rw [hsize]
      unfold uintSize
      omega
    rw [hsub, h.entry_eq]
    exact Nat.sub_mod_eq_zero_of_mod_eq (h.whole.trans hwhole.symm)
  have hs := h.splits hlt hfresh
  refine ⟨s.split x new sz, new, ?_, ⟨some x, Splits.bump h hpos hlt hwhole hfresh hnull hs⟩, ?_, ?_,
    fun y hy => ⟨_, hs.other y hy⟩, rfl, ?_⟩
  · rw [carve_split E hnew (by omega) hnx hprev₁ hprev₂, if_neg (not_not_intro hleft)]
  · rw [hs.cut]
    exact hptr
  · rw [hs.cut]
  · simp only [State.split]
    split
    · rw [(h.ours x hmem).1, Function.update_self]
    · rfl

/-- A request that fits returns a node of the block, whatever would be done for one that does not.
-/
theorem Bump.newNodeh_fits (h : Bump b s m ns f rem) (more : State → Option (State × Ptr))
    (size : Nat) (hpos : 0 < s.aligned size) (hwhole : s.aligned size % b.entry = 0)
    (hle : s.aligned size ≤ rem) (k : Nat) :
    ∃ s' n, newNodehWith more E (k + 1) size s = some (s', n) ∧ n ≠ NULL ∧
      Cut b s m ns rem (s.aligned size) s' n := by
  obtain ⟨x, rfl, hfind⟩ := h.findFree_fits hpos hle k
  have hmem : x ∈ s.nodes := (h.mem_iff x).mp (by simp)
  have hx : x ≠ NULL := (h.ours x hmem).2
  have hcarve : ∃ s' n, carve E (s.aligned size) x s = some (s', n) ∧
      Cut b s m ns rem (s.aligned size) s' n := by
    rcases Nat.eq_or_lt_of_le hle with heq | hlt
    · obtain ⟨s', hcarve, hcut⟩ := h.carve_whole (E := E)
      rw [heq]
      exact ⟨s', x, hcarve, hcut⟩
    · exact h.carve_part hpos hlt hwhole
  obtain ⟨s', n, hcarve, hcut⟩ := hcarve
  obtain ⟨f', hbump⟩ := hcut.bump
  have hn : n ∈ s'.nodes := (hbump.mem_iff n).mp (by simp)
  refine ⟨s', n, ?_, (hbump.ours n hn).2, hcut⟩
  rw [newNodehWith, hfind]
  simp only [Option.bind_eq_bind, Option.bind_some, if_neg hx]
  exact hcarve

-- ---------------------------------------------------------------------------
-- A request that does not
-- ---------------------------------------------------------------------------

/-- A request of at most a block does not wrap when it is rounded up. -/
theorem aligned_eq (h : Bump b s m ns f rem) {size : Nat}
    (hfits : align (size + fnodeAddSize) b.entry ≤ b.val) :
    s.aligned size = align (size + fnodeAddSize) b.entry := by
  rw [State.aligned, h.entry_eq]
  have hbound := b.int
  exact Nat.mod_eq_of_lt (hfits.trans_lt (hbound.trans (by decide)))

/-- A branch node always fits in an empty block. -/
theorem branch_fits (b : BlockSize) : align (sizeofBranch + fnodeAddSize) b.entry ≤ b.val := by
  have hpos := b.entry_pos
  have hval := b.val_eq
  have hle : 32 - 32 % b.entry + b.entry ≤ 32 + b.entry := Nat.add_le_add_right (Nat.sub_le ..) _
  show 32 - 32 % b.entry + b.entry ≤ b.val
  omega

/-- The node before the last one given out is another node, or there is none. -/
theorem Bump.before (h : Bump b s m (ns ++ [x]) f rem) :
    (s.node x).prev ≠ x ∧ ((s.node x).prev = NULL ∨ (s.node x).prev ∈ s.nodes) := by
  have hmem : ∀ y ∈ ns ++ [x], y ∈ s.nodes := fun y hy => (h.mem_iff y).mp (List.mem_append_left _ hy)
  have hlinks := (linked_append.mp h.block.links).1
  have hprev : (s.node x).prev = ns.getLastD NULL := (linked_append.mp hlinks).2.1
  have hnd := List.nodup_append.mp (List.nodup_append.mp h.nodup).1
  rw [hprev]
  by_cases hnil : ns = []
  · rw [hnil]
    exact ⟨(h.ours x (hmem x (by simp))).2.symm, .inl rfl⟩
  · have hlast := getLastD_mem hnil NULL
    exact ⟨hnd.2.2 _ hlast x (by simp), .inr (hmem _ (List.mem_append_left _ hlast))⟩

/-- A new branch node `n` in the first block: it is where the free node was, and no
larger. -/
structure Branched (b : BlockSize) (m : Ptr) (rem : Nat) (s : State) (n : Ptr) : Prop where
  null  : n ≠ NULL
  mem   : n ∈ s.nodes
  ptr   : (s.node n).ptr * b.entry + rem = b.val
  loc   : (s.node n).location = m
  size  : 0 < (s.node n).size ∧ (s.node n).size ≤ rem
  prev  : (s.node n).prev ≠ n ∧ ((s.node n).prev = NULL ∨ (s.node n).prev ∈ s.nodes)
  shift : (s.metaAt m).shift = 0
  block : s.blockSize = b.val
  metas : m ∈ s.metas

/-- A new block leaves the others as they are. -/
theorem newMeta_frame {s s' : State} {n m' : Ptr} (hmeta : newMeta E n s = some (s', m')) :
    (∀ y ∈ s.nodes, s'.node y = s.node y ∧ y ∈ s'.nodes) ∧
      (∀ m ∈ s.metas, s'.metaAt m = s.metaAt m ∧ m ∈ s'.metas) ∧ s'.blockSize = s.blockSize := by
  rw [newMeta] at hmeta
  split at hmeta
  · cases hmeta
  · obtain ⟨rfl, rfl⟩ := Prod.mk.inj (Option.some.inj hmeta)
    refine ⟨fun y hy => ⟨Function.update_of_ne ?_ .., List.mem_cons_of_mem _ hy⟩,
      fun m hm => ⟨Function.update_of_ne ?_ .., List.mem_cons_of_mem _ hm⟩, rfl⟩
    · intro heq
      exact E.malloc.fresh s.used (heq ▸ List.mem_append_left _ hy)
    · intro heq
      refine E.malloc.fresh (E.malloc.pick s.used :: s.used) ?_
      rw [← heq]
      exact List.mem_cons_of_mem _ (List.mem_append_right _ hm)

/-- A new metadata block below the branch node changes nothing in the block above. -/
theorem newMeta_branched {n m' : Ptr} (h : Branched b m rem s n) {s' : State}
    (hmeta : newMeta E n s = some (s', m')) :
    Branched b m rem (s'.modify n (Node.setSub m')) n := by
  obtain ⟨hnodes, hmetas, hsize⟩ := newMeta_frame hmeta
  obtain ⟨hm, hm'⟩ := hmetas m h.metas
  have hnode : (s'.modify n (Node.setSub m')).node n = Node.setSub m' (s.node n) := by
    rw [State.modify_node_self, (hnodes n h.mem).1]
  constructor
  · exact h.null
  · exact (hnodes n h.mem).2
  · rw [hnode]
    exact h.ptr
  · rw [hnode]
    exact h.loc
  · rw [hnode]
    exact h.size
  · rw [hnode]
    exact ⟨h.prev.1, h.prev.2.imp_right fun hn => (hnodes _ hn).2⟩
  · exact (congrArg Meta.shift hm).trans h.shift
  · exact hsize.trans h.block
  · exact hm'

/-- When there is no room, the branch node is laid over the node that ends the block. -/
theorem newBranch_branched (h : Bump b s m ns f rem) {k : Nat} {s' : State} {n : Ptr}
    (hbranch : newBranch E (k + 2) s = some (s', n)) : Branched b m rem s' n := by
  have hal := aligned_eq h (branch_fits b)
  have hpos : 0 < s.aligned sizeofBranch := hal ▸ align_pos _ b.entry_pos
  have hwhole : s.aligned sizeofBranch % b.entry = 0 := hal ▸ align_mod _ _
  rw [newBranch] at hbranch
  rcases Nat.lt_or_ge rem (s.aligned sizeofBranch) with hlt | hle
  · -- without room for a branch node the assertion fails
    have hnone : newNodehWith (fun s => some (s, NULL)) E (k + 2) sizeofBranch s = some (s, NULL) := by
      rw [newNodehWith, h.findFree_full hlt k]
      rfl
    rw [hnone] at hbranch
    cases hbranch
  · obtain ⟨s₁, n₁, hnode, hnull, hcut⟩ := h.newNodeh_fits (E := E) (fun s => some (s, NULL))
      sizeofBranch hpos hwhole hle (k + 1)
    rw [hnode] at hbranch
    simp only [Option.bind_eq_bind, Option.bind_some, if_neg hnull] at hbranch
    obtain ⟨⟨s₂, m₂⟩, hmeta, hresult⟩ := Option.bind_eq_some_iff.mp hbranch
    obtain ⟨rfl, rfl⟩ := Prod.mk.inj (Option.some.inj hresult)
    obtain ⟨f', hcutBump⟩ := hcut.bump
    have hbump := hcutBump.retype (n := n₁) (by simp) .BRANCH
    have hbefore := hbump.before
    have hn := (hbump.mem_iff n₁).mp (by simp)
    refine newMeta_branched ⟨hnull, hn, ?_, ?_, ?_, hbefore, hbump.shift, hbump.size, ?_⟩ hmeta
    · rw [State.modify_node_self]
      exact hcut.ptr
    · exact (hbump.ours n₁ hn).1
    · rw [State.modify_node_self]
      exact ⟨hcut.size.symm ▸ hpos, hcut.size.trans_le hle⟩
    · rw [hbump.metas]
      exact List.mem_singleton_self m

/-- A node that is cut from the branch node reaches out of the block. -/
theorem Branched.overlaps (h : Branched b m rem s x) {sz : Nat} (hlt : rem < sz) {s' : State} {n : Ptr}
    (hcarve : carve E sz x s = some (s', n)) (t : FnodeType) :
    ¬ Tiled (s'.modify n fun v => { v with type := t }) := by
  intro htiled
  obtain ⟨new, hnew⟩ : ∃ new, E.malloc.pick s.used = new := ⟨_, rfl⟩
  have hfresh : new ∉ s.nodes := by
    rw [← hnew]
    exact fun hn => E.malloc.fresh s.used (List.mem_append_left _ hn)
  have hnx : new ≠ x := fun hx => hfresh (hx ▸ h.mem)
  have hprev : (s.node x).prev ≠ new := by
    rcases h.prev.2 with hp | hp
    · rw [hp, ← hnew]
      exact (E.malloc.ne_null s.used).symm
    · exact fun hn => hfresh (hn ▸ hp)
  have hsmall := h.size
  rw [carve_split E hnew (by omega) hnx h.prev.1 hprev] at hcarve
  split at hcarve
  · cases hcarve
  · obtain ⟨rfl, rfl⟩ := Prod.mk.inj (Option.some.inj hcarve)
    have hnode : ((s.split x new sz).modify new fun v => { v with type := t }).node new =
        { s.node new with
          type := t, size := sz, ptr := (s.node x).ptr, location := m, prev := (s.node x).prev,
          next := x } := by
      rw [State.modify_node_self]
      simp only [State.split, if_neg hnx, if_true, h.loc]
    have hshift : ((s.split x new sz).metaAt m).shift = 0 := by
      simp only [State.split, h.loc]
      split
      · rw [Function.update_self]
        exact h.shift
      · exact h.shift
    obtain ⟨ns', hblock⟩ := htiled.blocks m h.metas
    have hin : new ∈ ns' := by
      rw [hblock.all, hnode]
      exact ⟨List.mem_cons_self, rfl⟩
    have hwithin := tiles_within hblock.tiles hin
    have hroom : 0 < rem := Nat.lt_of_lt_of_le hsmall.1 hsmall.2
    have hplace : ((s.split x new sz).modify new fun v => { v with type := t }).place new =
        (s.node x).ptr * b.entry := by
      rw [State.place, hnode]
      show (s.node x).ptr / 2 ^ ((s.split x new sz).metaAt m).shift % 0x100 * (s.blockSize / 0x100) = _
      rw [hshift, pow_zero, Nat.div_one, Nat.mod_eq_of_lt (b.ptr_lt h.ptr hroom), h.block]
      rfl
    rw [hplace, hnode] at hwithin
    have hend : (s.node x).ptr * b.entry + sz ≤ s.blockSize := hwithin
    have hptr := h.ptr
    have hval := h.block
    omega

/-- A request that does not fit leaves two nodes that overlap. -/
theorem newNode_overlaps (h : Bump b s m ns f rem) {k size : Nat} (hlt : rem < s.aligned size)
    {s' : State} {n : Ptr} (hnode : newNode E (k + 2) size s = some (s', n)) (t : FnodeType) :
    ¬ Tiled (s'.modify n fun v => { v with type := t }) := by
  rw [newNode, newNodehWith, h.findFree_full hlt k] at hnode
  simp only [Option.bind_eq_bind, Option.bind_some, if_true] at hnode
  obtain ⟨⟨s₁, x⟩, hbranch, hcarve⟩ := Option.bind_eq_some_iff.mp hnode
  have hbranched := newBranch_branched h hbranch
  have hal : s₁.aligned size = s.aligned size := by
    rw [State.aligned, State.aligned, State.entrySize, State.entrySize, hbranched.block, h.size]
  rw [if_neg hbranched.null, hal] at hcarve
  exact hbranched.overlaps hlt hcarve t

-- ---------------------------------------------------------------------------
-- Runs
-- ---------------------------------------------------------------------------

/-- More rounds do not change a result of `find_free`. -/
theorem below_findFree {k k' : Nat} (hle : k ≤ k') (size : Nat) (s : State) :
    Below (findFree k size s) (findFree k' size s) := by
  rw [findFree, findFree]
  exact below_ite (below_refl _) (below_iterate_join (fun _ _ h => h) (fun _ _ h => h) hle _)

/-- More rounds do not change a result of `new_nodeh`. -/
theorem below_newNodeh {more more' : State → Option (State × Ptr)}
    (hmore : ∀ s, Below (more s) (more' s)) {k k' : Nat} (hle : k ≤ k') (size : Nat) (s : State) :
    Below (newNodehWith more E k size s) (newNodehWith more' E k' size s) := by
  refine below_bind (below_findFree hle _ s) fun fnd => below_bind ?_ fun r => below_refl _
  exact below_ite (hmore s) (below_refl _)

/-- More rounds do not change a branch node. -/
theorem below_newBranch {k k' : Nat} (hle : k ≤ k') (s : State) :
    Below (newBranch E k s) (newBranch E k' s) :=
  below_bind (below_newNodeh (fun _ => below_refl _) hle _ s) fun _ => below_refl _

/-- More rounds do not change a node. -/
theorem below_newNode {k k' : Nat} (hle : k ≤ k') (size : Nat) (s : State) :
    Below (newNode E k size s) (newNode E k' size s) :=
  below_newNodeh (fun s => below_newBranch hle s) hle size s

theorem request_fueled : Fueled fun s (r : Request b) k => request E k r s := by
  intro s r k k' result hle h
  exact below_bind (below_newNode hle r.size s) (fun _ => below_refl _) result h

/-- A request that fits returns, the block stays in one piece, and the node is given out. -/
theorem request_fits (h : Bump b s m ns f rem) (hgiven : ∀ n ∈ ns, (s.node n).type ≠ .FREE)
    (r : Request b) (hle : r.aligned ≤ rem) :
    ∃ s' n f', Step E s r s' n ∧ Bump b s' m (ns ++ [n]) f' (rem - r.aligned) ∧
      (∀ y ∈ ns ++ [n], (s'.node y).type ≠ .FREE) ∧ (s'.metaAt m).lba = (s.metaAt m).lba := by
  have hal : s.aligned r.size = r.aligned := aligned_eq h r.fits
  obtain ⟨s', n, hnode, -, hcut⟩ := h.newNodeh_fits (E := E) (newBranch E 1) r.size
    (hal ▸ align_pos _ b.entry_pos) (hal ▸ align_mod _ _) (hal.trans_le hle) 0
  obtain ⟨f', hbump⟩ := hcut.bump
  refine ⟨s'.modify n fun v => { v with type := r.type }, n, f', ⟨1, ?_⟩,
    hal ▸ hbump.retype (n := n) (by simp) r.type, fun y hy => ?_, hcut.lba.2⟩
  · rw [request, newNode, hnode]
    rfl
  · by_cases hyn : y = n
    · rw [hyn, State.modify_node_self]
      exact r.given
    · have hmem : y ∈ ns := (List.mem_append.mp hy).resolve_right (by simpa using hyn)
      obtain ⟨next, hkept⟩ := hcut.kept y hmem
      rw [State.modify_node_ne hyn, hkept]
      exact hgiven y hmem

/-- After a request that does not fit the nodes do not tile the block. -/
theorem request_overlaps (h : Bump b s m ns f rem) (r : Request b) (hlt : rem < r.aligned) {s' : State}
    {n : Ptr} (hstep : Step E s r s' n) : ¬ Tiled s' := by
  obtain ⟨k, hk⟩ := hstep
  have hmore := request_fueled s r k (k + 2) _ (Nat.le_add_right k 2) hk
  obtain ⟨⟨s₁, n₁⟩, hnode, hresult⟩ := Option.bind_eq_some_iff.mp hmore
  obtain ⟨rfl, rfl⟩ := Prod.mk.inj (Option.some.inj hresult)
  have hal : s.aligned r.size = r.aligned := aligned_eq h r.fits
  exact newNode_overlaps h (hal ▸ hlt) hnode r.type

/-- From such a block on, a run keeps the block tiled exactly if all its requests fit together. -/
theorem tiled_iff_of_bump (h : Bump b s m ns f rem) (hgiven : ∀ n ∈ ns, (s.node n).type ≠ .FREE)
    (rs : List (Request b)) :
    Along (Step E) (fun _ _ s' _ => Tiled s') s rs ↔ (rs.map Request.aligned).sum ≤ rem := by
  induction rs generalizing s ns f rem with
  | nil => simp [Along]
  | cons r rs ih =>
    rw [List.map_cons, List.sum_cons]
    constructor
    · rintro ⟨s', n, hstep, htiled, hrest⟩
      have hle : r.aligned ≤ rem := by
        by_contra hlt
        exact request_overlaps h r (Nat.lt_of_not_le hlt) hstep htiled
      obtain ⟨s₁, n₁, f', ⟨k₁, hk₁⟩, hbump, hgiven', -⟩ := request_fits (E := E) h hgiven r hle
      obtain ⟨k, hk⟩ := hstep
      obtain ⟨rfl, rfl⟩ := Prod.mk.inj (request_fueled.unique hk hk₁)
      have hsum := (ih hbump hgiven').mp hrest
      omega
    · intro hsum
      obtain ⟨s', n, f', hstep, hbump, hgiven', -⟩ := request_fits (E := E) h hgiven r (by omega)
      exact ⟨s', n, hstep, hbump.tiled hgiven', (ih hbump hgiven').mpr (by omega)⟩

/-- What the first block has behind its header. -/
def BlockSize.room (b : BlockSize) : Nat := b.val - align sizeofHeader b.entry

/-- `parse_fsd` begins with an empty block. -/
theorem start_bump (E : Env) (b : BlockSize) (lba : Nat) (node : Ptr → Node) (metaAt : Ptr → Meta) :
    ∃ m x, newMeta E NULL (State.empty b lba node metaAt) = some (State.start E b lba node metaAt, m) ∧
      Bump b (State.start E b lba node metaAt) m [] (some x) b.room ∧
      ((State.start E b lba node metaAt).metaAt m).lba = lba ∧
      (State.start E b lba node metaAt).nextLba = (lba + 2) % wordSize := by
  obtain ⟨fr, hfr⟩ : ∃ fr, E.malloc.pick [] = fr := ⟨_, rfl⟩
  obtain ⟨m, hm⟩ : ∃ m, E.malloc.pick [fr] = m := ⟨_, rfl⟩
  have hnull : fr ≠ NULL := hfr ▸ E.malloc.ne_null []
  have hpos := b.entry_pos
  have hval := b.val_eq
  have hwhole : align sizeofHeader b.entry % b.entry = 0 := align_mod _ _
  have hroom : 0 < b.room := by
    have hle : 32 - 32 % b.entry + b.entry ≤ 32 + b.entry := Nat.add_le_add_right (Nat.sub_le ..) _
    show 0 < b.val - (32 - 32 % b.entry + b.entry)
    omega
  have hsum : align sizeofHeader b.entry + b.room = b.val := by
    unfold BlockSize.room at *
    omega
  have hptr : align sizeofHeader b.entry / b.entry * b.entry = align sizeofHeader b.entry := by
    have hdiv := Nat.div_add_mod (align sizeofHeader b.entry) b.entry
    rw [Nat.mul_comm]
    omega
  have hstart : State.start E b lba node metaAt = ⟨Function.update node fr { node fr with
      type := .FREE, next := NULL, prev := NULL, location := m,
      ptr := align sizeofHeader b.entry / b.entry, size := b.room, freeNext := NULL, freePrev := NULL },
      [fr], Function.update metaAt m ⟨lba, 0, 0, fr⟩, [m], b.val, (lba + 2) % wordSize, fr⟩ := by
    rw [State.start, newMeta, State.used, State.empty]
    simp only [List.append_nil, hfr, hm]
    rfl
  have hmade : newMeta E NULL (State.empty b lba node metaAt) =
      some (State.start E b lba node metaAt, m) := by
    rw [hstart, newMeta, State.used, State.empty]
    simp only [List.append_nil, hfr, hm]
    rfl
  refine ⟨m, fr, hmade, ?_⟩
  clear hmade
  generalize State.start E b lba node metaAt = s at hstart ⊢
  have hnode : s.node fr = { node fr with
      type := .FREE, next := NULL, prev := NULL, location := m,
      ptr := align sizeofHeader b.entry / b.entry, size := b.room, freeNext := NULL,
      freePrev := NULL } := by
    rw [hstart]
    exact Function.update_self ..
  have hmeta : s.metaAt m = ⟨lba, 0, 0, fr⟩ := by
    rw [hstart]
    exact Function.update_self ..
  have hnodes : s.nodes = [fr] := by rw [hstart]
  have hsize : s.blockSize = b.val := by rw [hstart]
  have hentry : s.entrySize = b.entry := by rw [State.entrySize, hsize, BlockSize.entry]
  have hbegin : s.behindHeader m = align sizeofHeader b.entry := by
    rw [State.behindHeader, hmeta, if_pos rfl, State.hdrSize, hentry]
  have hloc : ∀ n ∈ s.nodes, (s.node n).location = m ∧ n ≠ NULL := by
    intro n hn
    rw [hnodes, List.mem_singleton] at hn
    rw [hn, hnode]
    exact ⟨rfl, hnull⟩
  refine ⟨⟨hsize, ?_, ?_, ⟨fun n => ?_, ?_, ?_, ?_⟩, List.nodup_singleton fr, hloc, ?_, ?_,
    fun x hx => ?_, nofun, nofun⟩, ?_, ?_⟩
  · rw [hstart]
  · rw [hmeta]
  · have hlist : [] ++ (some fr).toList = s.nodes := hnodes.symm
    rw [hlist]
    exact ⟨fun hn => ⟨hn, (hloc n hn).1⟩, fun hn => hn.1⟩
  · rw [hmeta]
    rfl
  · exact ⟨congrArg Node.prev hnode, congrArg Node.next hnode, trivial⟩
  · have hplace : s.place fr = align sizeofHeader b.entry := by
      have hlt : align sizeofHeader b.entry / b.entry < 0x100 :=
        b.ptr_lt (r := b.room) (by omega) hroom
      rw [State.place, hnode, hmeta, hentry, pow_zero, Nat.div_one, Nat.mod_eq_of_lt hlt, hptr]
    rw [hbegin]
    refine ⟨hplace, ?_, ?_⟩
    · rw [hnode]
      exact hroom
    · rw [hnode, hsize]
      exact hsum
  · rw [hstart]
    rfl
  · have hmul : b.val % b.entry = 0 := by
      rw [hval]
      exact Nat.mul_mod_left ..
    exact Nat.sub_mod_eq_zero_of_mod_eq (hmul.trans hwhole.symm)
  · obtain rfl := Option.mem_some_iff.mp hx
    rw [hnode]
    exact ⟨rfl, rfl, rfl, rfl, hroom, by rw [hptr, hsum]⟩
  · rw [hmeta]
  · rw [hstart]

/-- Over every run of requests: the nodes tile their blocks after each one if and only if
they all have room in the first block. -/
theorem tiled_iff (E : Env) (b : BlockSize) (lba : Nat) (node : Ptr → Node) (metaAt : Ptr → Meta)
    (rs : List (Request b)) :
    Along (Step E) (fun _ _ s' _ => Tiled s') (State.start E b lba node metaAt) rs ↔
      (rs.map Request.aligned).sum ≤ b.room := by
  obtain ⟨m, x, -, hbump, -, -⟩ := start_bump E b lba node metaAt
  exact tiled_iff_of_bump hbump nofun rs

/-- The block size of `main`. -/
def BlockSize.default : BlockSize := ⟨0x1000, rfl, by decide, by decide⟩

/-- A node that leaves 80 bytes of the first block. -/
def leaves80 : Request .default := ⟨3950, .FILE, by decide, by decide⟩

/-- A node of 112 bytes. -/
def takes112 : Request .default := ⟨98, .STRING, by decide, by decide⟩

/-- The first block, with storage that was zero. -/
def State.fresh : State :=
  State.start ⟨.above⟩ .default 1 (fun _ => ⟨.FREE, 0, 0, NULL, NULL, NULL, NULL, NULL⟩)
    (fun _ => ⟨0, 0, 0, NULL⟩)

/-- With 80 bytes left a branch node of 48 bytes is made, and the node of 112 bytes is
cut from it. -/
theorem second_node_overlaps :
    ∃ s₁ n₁ s₂ n₂, Step ⟨.above⟩ State.fresh leaves80 s₁ n₁ ∧ Step ⟨.above⟩ s₁ takes112 s₂ n₂ ∧
      ¬ Tiled s₂ ∧
      ¬ Along (Step ⟨.above⟩) (fun _ _ s' _ => Tiled s') State.fresh [leaves80, takes112] := by
  obtain ⟨m, x, -, hbump, -, -⟩ := start_bump ⟨.above⟩ .default 1
    (fun _ => ⟨.FREE, 0, 0, NULL, NULL, NULL, NULL, NULL⟩) (fun _ => ⟨0, 0, 0, NULL⟩)
  have hruns : ((request ⟨.above⟩ 3 leaves80 State.fresh).bind fun r =>
      request ⟨.above⟩ 3 takes112 r.1).isSome = true := by decide +kernel
  obtain ⟨⟨s₂, n₂⟩, hruns⟩ := Option.isSome_iff_exists.mp hruns
  obtain ⟨⟨s₁, n₁⟩, hfirst, hsecond⟩ := Option.bind_eq_some_iff.mp hruns
  obtain ⟨s', n', f', ⟨k, hk⟩, hbump', -⟩ :=
    request_fits (E := ⟨.above⟩) hbump nofun leaves80 (by decide)
  obtain ⟨rfl, rfl⟩ := Prod.mk.inj (request_fueled.unique hk hfirst)
  have hover : ¬ Tiled s₂ := request_overlaps hbump' takes112 (by decide) ⟨3, hsecond⟩
  refine ⟨_, _, s₂, n₂, ⟨3, hfirst⟩, ⟨3, hsecond⟩, hover, ?_⟩
  rw [State.fresh, tiled_iff_of_bump hbump nofun]
  decide

end Frosk.Builder
