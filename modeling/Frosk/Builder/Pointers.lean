import Mathlib.Tactic
import Frosk.Builder.Blocks
import Frosk.Fs.Reading

/-!
# Pointers to nodes, from the builder to the kernel

An `fptr` has the entries of the branch nodes that lead to a node and then the entry of the
node, a byte each, the lowest first. The first node of a block below a branch gets the
pointer of the branch itself, since its entry is 0.

* `newMeta_at`, `carve_at` — the nodes of the builder have the pointers of their positions.
* `fptrs_decode_iff` — the kernel finds all nodes of a tree of metadata blocks by their
  pointers, and these are distinct, exactly if no node is in entry 0 of its block, and a block
  is one page or the blocks are loaded.
-/

namespace Frosk.Builder

open Lib Fs

-- ---------------------------------------------------------------------------
-- Positions
-- ---------------------------------------------------------------------------

/-- Where a node is: the entries of the branch nodes above it, the outermost first, and its
entry in the block below them. `new_meta` allows three branches. -/
@[ext] structure Position where
  branches : List Nat
  index    : Nat
  low      : ∀ i ∈ branches, i < 0x100
  entry    : index < 0x100
  depth    : branches.length ≤ 3

/-- The pointer of entry 0 of the block below these branches, which is the pointer of the
last of them, and the shift of the block. -/
def blockPtr (is : List Nat) : Nat × Nat :=
  is.foldl (fun r i => ((r.1 + i * 2 ^ r.2) % uintSize, r.2 + 8)) (0, 0)

/-- The pointer of the node at a position. -/
def Position.fptr (p : Position) : Nat :=
  ((blockPtr p.branches).1 + p.index * 2 ^ (blockPtr p.branches).2) % uintSize

/-- Four indices make a pointer of 32 bits. -/
theorem ofDigits_lt {l : List Nat} (hlow : ∀ i ∈ l, i < 0x100) (hlen : l.length ≤ 4) :
    Nat.ofDigits 0x100 l < uintSize := by
  have hlt : Nat.ofDigits 0x100 l < 0x100 ^ l.length := Nat.ofDigits_lt_base_pow_length' hlow
  have hpow : 0x100 ^ l.length ≤ 0x100 ^ 4 := Nat.pow_le_pow_right (by decide) hlen
  exact hlt.trans_le hpow

/-- The index of a node goes above those of its branches. -/
theorem ofDigits_concat (is : List Nat) (i : Nat) :
    Nat.ofDigits 0x100 (is ++ [i]) = Nat.ofDigits 0x100 is + i * 2 ^ (8 * is.length) := by
  rw [Nat.ofDigits_append, Nat.ofDigits_singleton, pow_mul, Nat.mul_comm i]
  rfl

/-- The pointer and the shift of a block are made of its branches. -/
theorem blockPtr_eq {is : List Nat} (hlow : ∀ i ∈ is, i < 0x100) (hlen : is.length ≤ 3) :
    blockPtr is = (Nat.ofDigits 0x100 is, 8 * is.length) := by
  induction is using List.reverseRecOn with
  | nil => rfl
  | append_singleton is i ih =>
    have hlen' : is.length + 1 ≤ 3 := by simpa using hlen
    have hprefix := ih (fun j hj => hlow j (List.mem_append_left _ hj)) (by omega)
    have hlt := ofDigits_lt hlow (by omega)
    rw [ofDigits_concat] at hlt
    rw [blockPtr, List.foldl_append, ← blockPtr, hprefix, ofDigits_concat, List.length_append]
    exact Prod.ext (Nat.mod_eq_of_lt hlt) (Nat.mul_add 8 is.length 1).symm

/-- The pointer of a node is made of the indices on the way to it. -/
theorem Position.fptr_eq (p : Position) : p.fptr = Nat.ofDigits 0x100 (p.branches ++ [p.index]) := by
  have hlow : ∀ i ∈ p.branches ++ [p.index], i < 0x100 := by
    intro i hi
    rcases List.mem_append.mp hi with hi | hi
    · exact p.low i hi
    · rw [List.mem_singleton.mp hi]
      exact p.entry
  have hdepth := p.depth
  have hlt := ofDigits_lt hlow (by rw [List.length_append, List.length_singleton]; omega)
  rw [ofDigits_concat] at hlt
  rw [fptr, blockPtr_eq p.low p.depth, ofDigits_concat]
  exact Nat.mod_eq_of_lt hlt

/-- The entry `index` of the block below the node. -/
def Position.sub (p : Position) (index : Nat) (h : index < 0x100) (hdepth : p.branches.length < 3) :
    Position where
  branches := p.branches ++ [p.index]
  index := index
  low i hi := by
    rcases List.mem_append.mp hi with hi | hi
    · exact p.low i hi
    · rw [List.mem_singleton.mp hi]
      exact p.entry
  entry := h
  depth := by
    rw [List.length_append, List.length_singleton]
    omega

/-- Another entry of the same block. -/
def Position.at (p : Position) (index : Nat) (h : index < 0x100) : Position :=
  { p with index := index, entry := h }

-- ---------------------------------------------------------------------------
-- The pointers of the builder
-- ---------------------------------------------------------------------------

/-- The node `n` has the pointer of the position `p`, in a block that counts in its steps. -/
structure At (s : State) (n : Ptr) (p : Position) : Prop where
  ptr   : (s.node n).ptr = p.fptr
  shift : (s.metaAt (s.node n).location).shift = 8 * p.branches.length

section Pointers

variable {E : Env} {s s' : State} {n m : Ptr} {p : Position}

/-- The free node of a new block is in entry 0 below the branch. -/
theorem newMeta_at (h : At s n p) (hn : n ≠ NULL) (hmeta : newMeta E n s = some (s', m)) :
    ∃ hdepth : p.branches.length < 3, At s' (s'.metaAt m).first (p.sub 0 (by decide) hdepth) := by
  rw [newMeta] at hmeta
  split at hmeta
  · cases hmeta
  · rename_i hguard
    have hshift : (s.metaAt (s.node n).location).shift < 24 := by
      by_contra hlt
      exact hguard ⟨hn, hlt⟩
    have hdepth : p.branches.length < 3 := by
      rw [h.shift] at hshift
      omega
    obtain ⟨rfl, rfl⟩ := Prod.mk.inj (Option.some.inj hmeta)
    refine ⟨hdepth, ?_, ?_⟩
    · simp only [Function.update_self]
      rw [h.ptr, p.fptr_eq, Position.fptr_eq, Position.sub, ofDigits_concat _ 0, Nat.zero_mul,
        Nat.add_zero]
    · simp only [Function.update_self]
      rw [h.shift, Position.sub, List.length_append, List.length_singleton, Nat.mul_add]

/-- The pointers and the blocks of all nodes. -/
def SamePtrs (s s' : State) : Prop :=
  (∀ y, (s'.node y).ptr = (s.node y).ptr ∧ (s'.node y).location = (s.node y).location) ∧
    ∀ m, (s'.metaAt m).shift = (s.metaAt m).shift

/-- A node stays where it is as long as pointers do. -/
theorem SamePtrs.at (h : SamePtrs s s') (hat : At s n p) : At s' n p :=
  ⟨(h.1 n).1.trans hat.ptr, by rw [(h.1 n).2, h.2, hat.shift]⟩

theorem SamePtrs.modify (h : SamePtrs s s') (y : Ptr) {f : Node → Node}
    (hf : ∀ v, (f v).ptr = v.ptr ∧ (f v).location = v.location) : SamePtrs s (s'.modify y f) := by
  refine ⟨?_, h.2⟩
  intro z
  by_cases hz : z = y
  · rw [hz, State.modify_node_self, (hf _).1, (hf _).2]
    exact h.1 y
  · rw [State.modify_node_ne hz]
    exact h.1 z

theorem samePtrs_modifyMeta (s : State) (m : Ptr) {f : Meta → Meta} (hf : ∀ v, (f v).shift = v.shift) :
    SamePtrs s (s.modifyMeta m f) := by
  refine ⟨fun _ => ⟨rfl, rfl⟩, fun y => ?_⟩
  by_cases hy : y = m
  · rw [hy]
    exact (congrArg Meta.shift (Function.update_self ..)).trans (hf _)
  · exact congrArg Meta.shift (Function.update_of_ne hy ..)

/-- A node that is cut from the free node takes its place, and the free node is as many
entries on as the new node has. -/
theorem carve_at (h : At s n p) {size : Nat} {x : Ptr} (hcarve : carve E size n s = some (s', x))
    (hnew : E.malloc.pick s.used ≠ n) (hlt : p.index + size / s.entrySize < 0x100) :
    At s' x p ∧ (x ≠ n → At s' n (p.at _ hlt)) := by
  have hrefl : ∀ s : State, SamePtrs s s := fun s => ⟨fun _ => ⟨rfl, rfl⟩, fun _ => rfl⟩
  rw [carve] at hcarve
  split at hcarve
  · -- the whole node is taken
    obtain ⟨rfl, rfl⟩ := Prod.mk.inj (Option.some.inj hcarve)
    refine ⟨?_, fun hne => absurd rfl hne⟩
    split
    · exact ⟨h.ptr, h.shift⟩
    · refine SamePtrs.at (SamePtrs.modify (hrefl s) _ ?_) h
      exact fun _ => ⟨rfl, rfl⟩
  · -- it is cut; what follows the cut stores links only
    generalize E.malloc.pick s.used = new at hcarve hnew
    let cut := ({ s with nodes := new :: s.nodes }.modify new fun v => { v with
      size := size, ptr := (s.node n).ptr, location := (s.node n).location }).modify n fun v => { v with
        ptr := (v.ptr + size / s.entrySize * 2 ^ (s.metaAt (s.node n).location).shift) % uintSize
        size := (v.size + (uintSize - size)) % uintSize }
    have hcarve' : (if (cut.node n).size % cut.entrySize ≠ 0 then none
        else some (((if (cut.node n).prev ≠ NULL
            then cut.modify (cut.node n).prev fun v => { v with next := new }
            else cut.modifyMeta (s.node n).location fun v => { v with first := new }).modify new
          fun v => { v with prev := (cut.node n).prev, next := n }).modify n
          fun v => { v with prev := new }, new)) = some (s', x) := hcarve
    split at hcarve'
    · cases hcarve'
    · obtain ⟨hs, rfl⟩ := Prod.mk.inj (Option.some.inj hcarve')
      have hsame : SamePtrs cut s' := by
        rw [← hs]
        refine SamePtrs.modify (SamePtrs.modify ?_ _ ?_) _ ?_
        · split
          · refine (hrefl cut).modify _ ?_
            exact fun _ => ⟨rfl, rfl⟩
          · refine samePtrs_modifyMeta cut _ ?_
            exact fun _ => rfl
        · exact fun _ => ⟨rfl, rfl⟩
        · exact fun _ => ⟨rfl, rfl⟩
      have hcutNew : cut.node new = { s.node new with
          size := size, ptr := (s.node n).ptr, location := (s.node n).location } := by
        simp only [cut]
        rw [State.modify_node_ne hnew, State.modify_node_self]
      have hcutOld : (cut.node n).ptr =
            ((s.node n).ptr + size / s.entrySize * 2 ^ (s.metaAt (s.node n).location).shift) % uintSize ∧
          (cut.node n).location = (s.node n).location := by
        simp only [cut]
        rw [State.modify_node_self, State.modify_node_ne (Ne.symm hnew)]
        exact ⟨rfl, rfl⟩
      have hblock : (blockPtr p.branches).2 = 8 * p.branches.length := by
        rw [blockPtr_eq p.low p.depth]
      refine ⟨hsame.at ⟨?_, ?_⟩, fun _ => hsame.at ⟨?_, ?_⟩⟩
      · rw [hcutNew]
        exact h.ptr
      · rw [hcutNew]
        exact h.shift
      · rw [hcutOld.1, h.ptr, h.shift, Position.fptr, Position.fptr, hblock, Nat.mod_add_mod,
          Nat.add_assoc, ← Nat.add_mul]
        show _ = ((blockPtr p.branches).1 +
          (p.index + size / s.entrySize) * 2 ^ (blockPtr p.branches).2) % uintSize
        rw [hblock]
      · rw [hcutOld.2]
        exact h.shift

end Pointers

-- ---------------------------------------------------------------------------
-- The blocks of the kernel
-- ---------------------------------------------------------------------------

/-- The bytes of a metadata block. -/
def blockBytesOf (s : Fs.State) : Nat := headerPageSize s.mem rfsmbLoc

/-- Where a metadata block is: in memory, or still on the disk. -/
inductive Place where
  | memory (a : Nat)
  | disk (a : Nat)

/-- A block in memory: its pages are in use, and it is the root block or apart from it. -/
structure Resident (s : Fs.State) (a : Nat) : Prop where
  pages : ∀ x < blockBytesOf s, a + x - (a + x) % pageSize ∈ s.pages
  fits  : a + blockBytesOf s ≤ wordSize
  apart : a = rfsmbLoc ∨ a + blockBytesOf s ≤ rfsmbLoc ∨ rfsmbLoc + blockBytesOf s ≤ a

/-- The node at `n` is a branch. -/
structure IsBranch (s : Fs.State) (m : Memory) (a i : Nat) : Prop where
  type : nodeType m (a + i * s.nodeSize) = some .BRANCH
  fits : i * s.nodeSize + (sizeofBranch + fnodeAddSize) ≤ blockBytesOf s

/-- The branch nodes in these entries lead from one block to another. A branch of the disk
is not loaded. -/
inductive Leads (E : Fs.Env) (s : Fs.State) : Place → List Nat → Place → Prop
  | here (w : Place) : Leads E s w [] w
  | loaded {a b i : Nat} {is : List Nat} {w : Place} (branch : IsBranch s s.mem a i)
      (use : branchOsUse s.mem (a + i * s.nodeSize) = b) (ne_zero : b ≠ 0) (resident : Resident s b)
      (rest : Leads E s (.memory b) is w) : Leads E s (.memory a) (i :: is) w
  | unloaded {a i : Nat} {is : List Nat} {w : Place} (branch : IsBranch s s.mem a i)
      (use : branchOsUse s.mem (a + i * s.nodeSize) = 0)
      (rest : Leads E s (.disk (branchLba1 s.mem (a + i * s.nodeSize) * blockBytesOf s % wordSize)) is w) :
      Leads E s (.memory a) (i :: is) w
  | onDisk {a i : Nat} {is : List Nat} {w : Place} (branch : IsBranch s E.disk a i)
      (use : branchOsUse E.disk (a + i * s.nodeSize) = 0)
      (rest : Leads E s (.disk (branchLba1 E.disk (a + i * s.nodeSize) * blockBytesOf s % wordSize)) is w) :
      Leads E s (.disk a) (i :: is) w

/-- `alloc_pgs` has pages for `k` blocks of `n` bytes. -/
def Supplies (E : Fs.Env) (n : Nat) : Nat → List Nat → List Nat → Prop
  | 0, _, _ => True
  | k + 1, frames, pages => ∃ phys virt, E.phys.pick n frames = some phys ∧
      E.virt.pick n pages = some virt ∧
      Supplies E n k (pageRange phys n ++ frames) (pageRange virt n ++ pages)

/-- A kernel that has the root block in memory, and pages for three more. -/
structure Ready (E : Fs.Env) (s : Fs.State) : Prop where
  root     : Resident s rfsmbLoc
  pos      : 0 < blockBytesOf s
  whole    : blockBytesOf s % pageSize = 0
  unit     : s.nodeSize = blockBytesOf s / 0x100
  supplies : Supplies E (blockBytesOf s) 3 s.frames s.pages

/-- The block is at `a` in memory afterwards, read from the disk if it was not there. -/
def Place.Found (E : Fs.Env) (s s' : Fs.State) (a : Nat) : Place → Prop
  | .memory b => s' = s ∧ a = b
  | .disk b => s'.mem.slice a (blockBytesOf s) = E.disk.slice b (blockBytesOf s)

/-- `resolve_node` of the pointer of a position yields its entry of the block `w`. -/
def Decodes (E : Fs.Env) (s : Fs.State) (p : Position) (w : Place) : Prop :=
  ∃ s' a, resolveNode E p.fptr s = some (s', a + p.index * s.nodeSize) ∧ w.Found E s s' a

-- ---------------------------------------------------------------------------
-- Loading a block
-- ---------------------------------------------------------------------------

section Loading

variable {E : Fs.Env} {s s₁ : Fs.State} {a b i k : Nat} {is : List Nat} {w : Place}

/-- The state `s₁` during the walk: the block of the disk at `b` is at `a`. -/
structure Walk (E : Fs.Env) (s s₁ : Fs.State) (a b j : Nat) : Prop where
  unit     : s₁.nodeSize = s.nodeSize
  bytes    : blockBytesOf s₁ = blockBytesOf s
  root     : Resident s₁ rfsmbLoc
  here     : Resident s₁ a
  supplies : Supplies E (blockBytesOf s) j s₁.frames s₁.pages
  holds    : ∀ x < blockBytesOf s, s₁.mem (a + x) = E.disk (b + x)

/-- A branch that is not loaded: its block is read into a new page. -/
theorem load_walk (h : Ready E s) (hpage : ¬ pageSize < blockBytesOf s) (hunit : s₁.nodeSize = s.nodeSize)
    (hbytes : blockBytesOf s₁ = blockBytesOf s) (hroot : Resident s₁ rfsmbLoc) (hhere : Resident s₁ a)
    {j : Nat} (hsupplies : Supplies E (blockBytesOf s) (j + 1) s₁.frames s₁.pages)
    (hfits : i * s.nodeSize + (sizeofBranch + fnodeAddSize) ≤ blockBytesOf s)
    (huse : branchOsUse s₁.mem (a + i * s.nodeSize) = 0) :
    ∃ s₂ v, loadBranch E (a + i * s.nodeSize) s₁ = some s₂ ∧
      branchOsUse s₂.mem (a + i * s.nodeSize) = v ∧
      Walk E s s₂ v (branchLba1 s₁.mem (a + i * s.nodeSize) * blockBytesOf s % wordSize) j := by
  obtain ⟨phys, virt, hphys, hvirt, hrest⟩ := hsupplies
  generalize hn : a + i * s.nodeSize = n at huse ⊢
  generalize hlba : branchLba1 s₁.mem n * blockBytesOf s % wordSize = b
  -- no byte of the new pages is in a block that was in memory
  have hfresh : ∀ {c : Nat}, Resident s₁ c → ∀ x < blockBytesOf s, ∀ y < blockBytesOf s,
      c + x ≠ virt + y := by
    intro c hc x hx y hy heq
    have hmem := hc.pages x (hbytes.symm ▸ hx)
    have hpaged := E.virt.paged hvirt
    refine E.virt.fresh hvirt (y / pageSize) ?_ ?_
    · exact (Nat.div_mul_le_self y pageSize).trans_lt hy
    · have hstart : virt + y / pageSize * pageSize = c + x - (c + x) % pageSize := by
        rw [heq]
        have hmod : (virt + y) % pageSize = y % pageSize := by
          rw [Nat.add_mod, hpaged, Nat.zero_add, Nat.mod_mod]
        have hdiv := Nat.div_add_mod y pageSize
        rw [hmod, Nat.mul_comm]
        omega
      rw [hstart]
      exact hmem
  have hend := E.virt.fits hvirt
  have hbelow : n + 32 ≤ a + blockBytesOf s := by
    have h32 : sizeofBranch + fnodeAddSize = 32 := rfl
    omega
  have hpos : 32 ≤ blockBytesOf s := le_trans (Nat.le_add_left ..) hfits
  obtain ⟨hpages, hlast, hapart⟩ := hhere
  rw [hbytes] at hpages hlast hapart
  let mem := (s₁.mem.blit virt (E.disk.slice b (blockBytesOf s))).put 8 (n + 24) virt
  let s₂ : Fs.State := { s₁ with
    frames := pageRange phys (blockBytesOf s) ++ s₁.frames
    pages := pageRange virt (blockBytesOf s) ++ s₁.pages
    mem := mem }
  have hload : loadBranch E n s₁ = some s₂ := by
    rw [loadBranch, if_neg (not_not_intro huse)]
    have hheader : headerPageSize s₁.mem rfsmbLoc = blockBytesOf s := hbytes
    simp only [hheader, hphys, hvirt, Option.bind_eq_bind, Option.bind_some, hlba, if_neg hpage]
    rfl
  -- the stored address is in a block that was in memory
  have hoff : ∀ x < blockBytesOf s, virt + x < n + 24 ∨ n + 24 + 8 ≤ virt + x := by
    intro x hx
    by_contra hin
    have hne :=
      hfresh (c := a) ⟨hbytes ▸ hpages, hbytes ▸ hlast, hbytes ▸ hapart⟩ (virt + x - a) (by omega) x hx
    omega
  have hbytes₂ : blockBytesOf s₂ = blockBytesOf s := by
    refine Eq.trans (Memory.get_congr fun x hx => ?_) hbytes
    have hout : rfsmbLoc + 8 + x < virt ∨ virt + blockBytesOf s ≤ rfsmbLoc + 8 + x := by
      by_contra hin
      exact hfresh hroot (8 + x) (by omega) (rfsmbLoc + 8 + x - virt) (by omega) (by omega)
    refine Eq.trans (Memory.put_outside ?_) (Memory.blit_outside ?_)
    · unfold rfsmbLoc at *
      omega
    · rw [Memory.slice_length]
      exact hout
  have hword : virt < 256 ^ 8 := by
    have hsize : (256 : Nat) ^ 8 = wordSize := rfl
    omega
  refine ⟨s₂, virt, hload, Memory.get_put_self hword, hunit, hbytes₂, ⟨?_, ?_, .inl rfl⟩,
    ⟨?_, ?_, ?_⟩, hrest, ?_⟩
  · intro x hx
    rw [hbytes₂, ← hbytes] at hx
    exact List.mem_append_right _ (hroot.pages x hx)
  · rw [hbytes₂, ← hbytes]
    exact hroot.fits
  · intro x hx
    rw [hbytes₂] at hx
    refine List.mem_append_left _ (List.mem_map.mpr ⟨x / pageSize, ?_, ?_⟩)
    · rw [List.mem_range]
      have hwhole := h.whole
      unfold pageSize at *
      omega
    · have hpaged := E.virt.paged hvirt
      unfold pageSize at *
      omega
  · rw [hbytes₂]
    exact hend
  · rw [hbytes₂]
    right
    by_contra hin
    have hne := hfresh hroot (virt - rfsmbLoc) (by omega) (rfsmbLoc - virt) (by omega)
    omega
  · intro x hx
    have hinside := Memory.blit_inside (m := s₁.mem) (a := virt)
      (l := E.disk.slice b (blockBytesOf s)) (i := x) (by rw [Memory.slice_length]; exact hx)
    refine Eq.trans (Memory.put_outside (hoff x hx)) (hinside.trans ?_)
    exact Option.some.inj ((List.getElem?_eq_getElem _).symm.trans (Memory.slice_getElem? hx))

-- ---------------------------------------------------------------------------
-- resolve_node
-- ---------------------------------------------------------------------------

/-- What is read of a block is what the disk has. -/
theorem Walk.get_eq {j : Nat} (h : Walk E s s₁ a b j) {o c : Nat} (hle : o + c ≤ blockBytesOf s) :
    s₁.mem.get c (a + o) = E.disk.get c (b + o) := by
  refine congrArg fromLE (List.map_congr_left fun x hx => ?_)
  rw [List.mem_range] at hx
  show s₁.mem (a + o + x) = E.disk (b + o + x)
  rw [Nat.add_assoc, Nat.add_assoc]
  exact h.holds (o + x) (by omega)

/-- One round at a branch node. -/
theorem resolve_branch {q n : Nat} {s₂ : Fs.State} (hi : i < 0x100) (hq : q ≠ 0)
    (hn : a + i * s₁.nodeSize = n) (hlt : n < wordSize) (htype : nodeType s₁.mem n = some .BRANCH)
    (hload : loadBranch E n s₁ = some s₂) :
    resolveBody E (s₁, i + 0x100 * q, a) = .inl (s₂, q, branchOsUse s₂.mem n) := by
  have hdiv : (i + 0x100 * q) / 0x100 = q := by omega
  have hmod : (i + 0x100 * q) % 0x100 = i := by omega
  simp only [resolveBody, hdiv, hmod, hn, Nat.mod_eq_of_lt hlt]
  rw [if_neg (by simp only [not_or, not_not]; exact ⟨hq, htype⟩), hload]

/-- A round at a branch node whose block is not loaded. -/
theorem resolve_stops {q n : Nat} (hi : i < 0x100) (hq : q ≠ 0) (hn : a + i * s₁.nodeSize = n)
    (hlt : n < wordSize) (htype : nodeType s₁.mem n = some .BRANCH) (hload : loadBranch E n s₁ = none) :
    resolveBody E (s₁, i + 0x100 * q, a) = .inr none := by
  have hdiv : (i + 0x100 * q) / 0x100 = q := by omega
  have hmod : (i + 0x100 * q) % 0x100 = i := by omega
  simp only [resolveBody, hdiv, hmod, hn, Nat.mod_eq_of_lt hlt]
  rw [if_neg (by simp only [not_or, not_not]; exact ⟨hq, htype⟩), hload]

/-- The last round. -/
theorem resolve_last (hk : k < 0x100) (hlt : a + k * s₁.nodeSize < wordSize) :
    resolveBody E (s₁, k, a) = .inr (some (s₁, a + k * s₁.nodeSize)) := by
  simp only [resolveBody, Nat.mod_eq_of_lt hk, Nat.mod_eq_of_lt hlt]
  rw [if_pos (.inl (Nat.div_eq_of_lt hk))]

/-- Only entry 0 adds nothing to a pointer. -/
theorem ofDigits_ne_zero (is : List Nat) (hk : k ≠ 0) : Nat.ofDigits 0x100 (is ++ [k]) ≠ 0 := by
  have hpos : 0 < 2 ^ (8 * is.length) := Nat.two_pow_pos _
  have hmul := Nat.mul_pos (Nat.pos_of_ne_zero hk) hpos
  rw [ofDigits_concat]
  omega

/-- Entries lie in their block. -/
theorem Ready.entry_lt (h : Ready E s) (hi : i < 0x100) :
    i * s.nodeSize < blockBytesOf s := by
  rw [h.unit]
  have hpos := h.pos
  have hwhole := h.whole
  have hmul : i * (blockBytesOf s / 0x100) ≤ 0xff * (blockBytesOf s / 0x100) :=
    Nat.mul_le_mul_right _ (by omega)
  omega

/-- From a block of the disk that was just loaded. -/
theorem walk_disk (h : Ready E s) (hpage : ¬ pageSize < blockBytesOf s) (hw : Walk E s s₁ a b is.length)
    (hleads : Leads E s (.disk b) is w) (hlow : ∀ i ∈ is, i < 0x100) (hk : k ≠ 0) (hlt : k < 0x100) :
    ∃ s' a' b', w = .disk b' ∧ (∀ x < blockBytesOf s, s'.mem (a' + x) = E.disk (b' + x)) ∧
      iterate (resolveBody E) (is.length + 1) (s₁, Nat.ofDigits 0x100 (is ++ [k]), a) =
        some (some (s', a' + k * s.nodeSize)) := by
  have hword : ∀ {i : Nat}, i < 0x100 → a + i * s.nodeSize < wordSize := by
    intro i hi
    have hentry := h.entry_lt hi
    have hfits := hw.here.fits
    rw [hw.bytes] at hfits
    omega
  induction is generalizing s₁ a b with
  | nil =>
    cases hleads
    refine ⟨s₁, a, b, rfl, hw.holds, ?_⟩
    rw [List.nil_append, Nat.ofDigits_singleton, ← hw.unit]
    exact iterate_succ_inr (resolve_last hlt (hw.unit.symm ▸ hword hlt)) 0
  | cons i is ih =>
    cases hleads with
    | onDisk branch use rest =>
      have hi := hlow i List.mem_cons_self
      have hfits := branch.fits
      have h32 : sizeofBranch + fnodeAddSize = 32 := rfl
      have htype : nodeType s₁.mem (a + i * s.nodeSize) = some .BRANCH :=
        (congrArg FnodeType.decode (hw.get_eq (by omega))).trans branch.type
      have huse : branchOsUse s₁.mem (a + i * s.nodeSize) = 0 := by
        have hget := hw.get_eq (o := i * s.nodeSize + 24) (c := 8) (by omega)
        rw [← Nat.add_assoc, ← Nat.add_assoc] at hget
        exact hget.trans use
      have hlba : branchLba1 s₁.mem (a + i * s.nodeSize) = branchLba1 E.disk (b + i * s.nodeSize) := by
        have hget := hw.get_eq (o := i * s.nodeSize + 8) (c := 8) (by omega)
        rwa [← Nat.add_assoc, ← Nat.add_assoc] at hget
      obtain ⟨s₂, v, hload, hv, hw'⟩ := load_walk h hpage hw.unit hw.bytes hw.root hw.here
        hw.supplies hfits huse
      rw [hlba] at hw'
      obtain ⟨s', a', b', hdisk, hholds, hrest⟩ := ih hw' rest
        (fun j hj => hlow j (List.mem_cons_of_mem _ hj)) (by
          intro j hj
          have hentry := h.entry_lt hj
          have hend := hw'.here.fits
          rw [hw'.bytes] at hend
          omega)
      refine ⟨s', a', b', hdisk, hholds, ?_⟩
      have hround := resolve_branch (E := E) hi (ofDigits_ne_zero is hk)
        (congrArg (a + i * ·) hw.unit) (hword hi) htype hload
      rw [hv] at hround
      rw [List.cons_append, Nat.ofDigits_cons, List.length_cons, iterate_succ_inl hround]
      exact hrest

theorem supplies_mono {n j : Nat} {frames pages : List Nat} (h : Supplies E n k frames pages)
    (hle : j ≤ k) : Supplies E n j frames pages := by
  induction k generalizing j frames pages with
  | zero =>
    obtain rfl := Nat.le_zero.mp hle
    trivial
  | succ k ih =>
    cases j with
    | zero => trivial
    | succ j =>
      obtain ⟨phys, virt, hphys, hvirt, hrest⟩ := h
      exact ⟨phys, virt, hphys, hvirt, ih hrest (by omega)⟩

/-- Below a block of the disk are blocks of the disk. -/
theorem leads_disk (h : Leads E s (.disk b) is w) : ∃ c, w = .disk c := by
  induction is generalizing b with
  | nil =>
    cases h
    exact ⟨b, rfl⟩
  | cons i is ih =>
    cases h with
    | onDisk branch use rest => exact ih rest

/-- From a block in memory. -/
theorem walk_memory (h : Ready E s) (hpage : blockBytesOf s = pageSize ∨ ∃ c, w = .memory c)
    (hhere : Resident s a) (hleads : Leads E s (.memory a) is w) (hlow : ∀ i ∈ is, i < 0x100)
    (hlen : is.length ≤ 3) (hk : k ≠ 0) (hlt : k < 0x100) :
    ∃ s' a', iterate (resolveBody E) (is.length + 1) (s, Nat.ofDigits 0x100 (is ++ [k]), a) =
        some (some (s', a' + k * s.nodeSize)) ∧ w.Found E s s' a' := by
  induction is generalizing a with
  | nil =>
    cases hleads
    have hentry := h.entry_lt hlt
    have hend := hhere.fits
    refine ⟨s, a, ?_, rfl, rfl⟩
    rw [List.nil_append, Nat.ofDigits_singleton]
    exact iterate_succ_inr (resolve_last hlt (by omega)) 0
  | cons i is ih =>
    have hi := hlow i List.mem_cons_self
    have hlow' : ∀ j ∈ is, j < 0x100 := fun j hj => hlow j (List.mem_cons_of_mem _ hj)
    rw [List.length_cons] at hlen
    have hword : a + i * s.nodeSize < wordSize := by
      have hentry := h.entry_lt hi
      have hend := hhere.fits
      omega
    rw [List.cons_append, Nat.ofDigits_cons, List.length_cons]
    cases hleads with
    | @loaded a b i is w branch use ne_zero resident rest =>
      have hload : loadBranch E (a + i * s.nodeSize) s = some s := by
        rw [loadBranch, if_pos (use.symm ▸ ne_zero)]
      have hround := resolve_branch (E := E) hi (ofDigits_ne_zero is hk) rfl hword branch.type hload
      rw [use] at hround
      rw [iterate_succ_inl hround]
      exact ih resident rest hlow' (by omega)
    | unloaded branch use rest =>
      have hone : ¬ pageSize < blockBytesOf s := by
        rcases hpage with hpage | ⟨c, rfl⟩
        · omega
        · obtain ⟨b, hdisk⟩ := leads_disk rest
          cases hdisk
      obtain ⟨s₂, v, hload, hv, hw⟩ := load_walk h hone rfl rfl h.root hhere
        (supplies_mono h.supplies hlen) branch.fits use
      have hround := resolve_branch (E := E) hi (ofDigits_ne_zero is hk) rfl hword branch.type hload
      rw [hv] at hround
      rw [iterate_succ_inl hround]
      have hwalk := walk_disk h hone hw rest hlow' hk hlt
      obtain ⟨s', a', b', rfl, hholds, hrest⟩ := hwalk
      exact ⟨s', a', hrest, List.map_congr_left fun x hx => hholds x (List.mem_range.mp hx)⟩

/-- A block of the disk that is larger than a page is not loaded. -/
theorem load_unmapped (hpage : pageSize < blockBytesOf s) {n : Nat} (huse : branchOsUse s.mem n = 0) :
    loadBranch E n s = none := by
  have hheader : pageSize < headerPageSize s.mem rfsmbLoc := hpage
  rw [loadBranch, if_neg (not_not_intro huse)]
  simp only [if_pos hheader, Option.bind_eq_bind, Option.bind_eq_none_iff, implies_true]

/-- On the way to a block of the disk the walk meets a branch that is not loaded. -/
theorem walk_unmapped (h : Ready E s) (hpage : pageSize < blockBytesOf s) (hhere : Resident s a)
    (hleads : Leads E s (.memory a) is (.disk b)) (hlow : ∀ i ∈ is, i < 0x100) (hk : k ≠ 0) :
    iterate (resolveBody E) (is.length + 1) (s, Nat.ofDigits 0x100 (is ++ [k]), a) = some none := by
  induction is generalizing a with
  | nil => cases hleads
  | cons i is ih =>
    have hi := hlow i List.mem_cons_self
    have hword : a + i * s.nodeSize < wordSize := by
      have hentry := h.entry_lt hi
      have hend := hhere.fits
      omega
    rw [List.cons_append, Nat.ofDigits_cons, List.length_cons]
    cases hleads with
    | @loaded a c i is w branch use ne_zero resident rest =>
      have hload : loadBranch E (a + i * s.nodeSize) s = some s := by
        rw [loadBranch, if_pos (use.symm ▸ ne_zero)]
      have hround := resolve_branch (E := E) hi (ofDigits_ne_zero is hk) rfl hword branch.type hload
      rw [use] at hround
      rw [iterate_succ_inl hround]
      exact ih resident rest fun j hj => hlow j (List.mem_cons_of_mem _ hj)
    | unloaded branch use rest =>
      have hload := load_unmapped (E := E) hpage use
      exact iterate_succ_inr (resolve_stops hi (ofDigits_ne_zero is hk) rfl hword branch.type hload) _

end Loading

-- ---------------------------------------------------------------------------
-- Trees of blocks
-- ---------------------------------------------------------------------------

/-- Without branches the way is over. -/
theorem leads_nil {E : Fs.Env} {s : Fs.State} {v w : Place} (h : Leads E s v [] w) : w = v := by
  cases h
  rfl

/-- The way down to a node that is not in entry 0 ends at the node. -/
theorem Ready.decodes {E : Fs.Env} {s : Fs.State} (h : Ready E s) {p : Position} {w : Place}
    (hpage : blockBytesOf s = pageSize ∨ ∃ c, w = .memory c)
    (hleads : Leads E s (.memory rfsmbLoc) p.branches w) (hp : p.index ≠ 0) : Decodes E s p w := by
  obtain ⟨s', a, hrounds, hplace⟩ := walk_memory h hpage h.root hleads p.low p.depth hp p.entry
  refine ⟨s', a, ?_, hplace⟩
  have hdepth := p.depth
  rw [p.fptr_eq, resolveNode, if_neg (ofDigits_ne_zero _ hp), iterate_mono hrounds (by omega)]
  rfl

/-- The pages of a larger block are not all mapped, so its nodes are not reached. -/
theorem Ready.not_decodes {E : Fs.Env} {s : Fs.State} (h : Ready E s) {p : Position} {b : Nat}
    (hpage : pageSize < blockBytesOf s)
    (hleads : Leads E s (.memory rfsmbLoc) p.branches (.disk b)) (hp : p.index ≠ 0) :
    ¬ Decodes E s p (.disk b) := by
  rintro ⟨s', a, hresolve, -⟩
  have hrounds := walk_unmapped h hpage h.root hleads p.low hp
  have hdepth := p.depth
  rw [p.fptr_eq, resolveNode, if_neg (ofDigits_ne_zero _ hp), iterate_mono hrounds (by omega)] at hresolve
  cases hresolve

/-- Two nodes that are not in entry 0 have two pointers. -/
theorem fptr_inj {p q : Position} (hp : p.index ≠ 0) (hq : q.index ≠ 0) (h : p.fptr = q.fptr) :
    p = q := by
  have hdigits : ∀ r : Position, r.index ≠ 0 →
      Nat.digits 0x100 r.fptr = r.branches ++ [r.index] := by
    intro r hr
    rw [r.fptr_eq]
    refine Nat.digits_ofDigits 0x100 (by decide) _ (fun i hi => ?_) fun hne => ?_
    · rcases List.mem_append.mp hi with hi | hi
      · exact r.low i hi
      · rw [List.mem_singleton.mp hi]
        exact r.entry
    · rw [List.getLast_append_singleton]
      exact hr
  have hlists := (hdigits p hp).symm.trans ((congrArg (Nat.digits 0x100) h).trans (hdigits q hq))
  obtain ⟨hbranches, hindex⟩ := List.append_inj' hlists rfl
  exact Position.ext hbranches (List.singleton_injective hindex)

/-- No node that is found, with a pointer of its own, is in entry 0 of its block. -/
theorem indices_ne_zero {E : Fs.Env} {s : Fs.State} {nodes : Set Position} {place : Position → Place}
    (hleads : ∀ p ∈ nodes, Leads E s (.memory rfsmbLoc) p.branches (place p))
    (hclosed : ∀ p ∈ nodes, ∀ is i, p.branches = is ++ [i] →
      ∃ q ∈ nodes, q.branches = is ∧ q.index = i)
    (hdecodes : ∀ p ∈ nodes, Decodes E s p (place p))
    (hinj : ∀ p ∈ nodes, ∀ q ∈ nodes, p.fptr = q.fptr → p = q) : ∀ p ∈ nodes, p.index ≠ 0 := by
  intro p hp hzero
  rcases List.eq_nil_or_concat p.branches with hnil | ⟨is, i, hconcat⟩
  · -- entry 0 of the root block is the header, and has the pointer `NULL`
    have hplace : place p = .memory rfsmbLoc := by
      have hlead := hleads p hp
      rw [hnil] at hlead
      exact leads_nil hlead
    obtain ⟨s', a, hresolve, hmatch⟩ := hdecodes p hp
    rw [hplace] at hmatch
    have hptr : p.fptr = 0 := by
      rw [p.fptr_eq, hnil, hzero]
      rfl
    rw [hptr, resolveNode, if_pos rfl, hmatch.2, hzero, Nat.zero_mul] at hresolve
    exact absurd (Prod.mk.inj (Option.some.inj hresolve)).2 (by decide)
  · -- entry 0 of another block has the pointer of the branch
    rw [List.concat_eq_append] at hconcat
    obtain ⟨q, hq, hbranches, hindex⟩ := hclosed p hp is i hconcat
    have hptr : p.fptr = q.fptr := by
      rw [p.fptr_eq, q.fptr_eq, hbranches, hindex, hconcat, hzero, ofDigits_concat _ 0, Nat.zero_mul,
        Nat.add_zero]
    have hsame := hinj p hp q hq hptr
    have hlength := congrArg (fun r => r.branches.length) hsame
    simp only [hbranches, hconcat, List.length_append, List.length_singleton] at hlength
    omega

/-- **Pointers**: the kernel finds the nodes of a tree of metadata blocks by their pointers,
and no two of them have the same, exactly if none of them is in entry 0 of its block, and a
block is one page or all the blocks are loaded. -/
theorem fptrs_decode_iff (E : Fs.Env) (s : Fs.State) (h : Ready E s) (nodes : Set Position)
    (place : Position → Place)
    (hleads : ∀ p ∈ nodes, Leads E s (.memory rfsmbLoc) p.branches (place p))
    (hclosed : ∀ p ∈ nodes, ∀ is i, p.branches = is ++ [i] →
      ∃ q ∈ nodes, q.branches = is ∧ q.index = i) :
    ((∀ p ∈ nodes, Decodes E s p (place p)) ∧
      ∀ p ∈ nodes, ∀ q ∈ nodes, p.fptr = q.fptr → p = q) ↔
      (∀ p ∈ nodes, p.index ≠ 0) ∧
        (blockBytesOf s = pageSize ∨ ∀ p ∈ nodes, ∃ a, place p = .memory a) := by
  constructor
  · rintro ⟨hdecodes, hinj⟩
    have hindex : ∀ p ∈ nodes, p.index ≠ 0 := indices_ne_zero hleads hclosed hdecodes hinj
    refine ⟨hindex, or_iff_not_imp_left.mpr ?_⟩
    intro hpage p hp
    have hlarger : pageSize < blockBytesOf s := by
      have hpos := h.pos
      have hwhole := h.whole
      unfold pageSize at *
      omega
    cases hplace : place p with
    | memory a => exact ⟨a, rfl⟩
    | disk b =>
      have hlead := hleads p hp
      have hdecode := hdecodes p hp
      rw [hplace] at hlead hdecode
      exact absurd hdecode (h.not_decodes hlarger hlead (hindex p hp))
  · rintro ⟨hne, hpage⟩
    exact ⟨fun p hp => h.decodes (hpage.imp_right fun hloaded => hloaded p hp) (hleads p hp) (hne p hp),
      fun p hp q hq hptr => fptr_inj (hne p hp) (hne q hq) hptr⟩

/-- A kernel with a branch node in entry 3 of the root block, whose block was not read. -/
def branched : Fs.State :=
  { Fs.State.single with
    mem := ((Memory.put (fun _ => 0) 4 0x1008 0x1000).put 1 0x1030 6).put 8 0x1038 5
    pages := [0x1000] }

theorem branched_bytes : blockBytesOf branched = 0x1000 := by decide +kernel

theorem branched_ready : Ready .plain branched := by
  have hroot : Resident branched rfsmbLoc := by
    refine ⟨?_, by rw [branched_bytes]; decide, .inl rfl⟩
    intro x hx
    rw [branched_bytes] at hx
    have hpage : rfsmbLoc + x - (rfsmbLoc + x) % pageSize = 0x1000 := by
      unfold rfsmbLoc pageSize
      omega
    rw [hpage]
    exact List.mem_singleton_self _
  refine ⟨hroot, ?_, ?_, ?_, ?_⟩
  · rw [branched_bytes]
    decide
  · rw [branched_bytes]
    decide
  · rw [branched_bytes]
    rfl
  · rw [branched_bytes]
    refine ⟨highHalfBot + 0x1000, highHalfBot + 0x1000, ?_, ?_, highHalfBot + 0x2000,
      highHalfBot + 0x2000, ?_, ?_, highHalfBot + 0x3000, highHalfBot + 0x3000, ?_, ?_, trivial⟩
    all_goals decide +kernel

/-- The branch node. -/
def atBranch : Position := ⟨[], 3, nofun, by decide, by decide⟩

/-- Where the block of a position is. -/
def branchedPlace (p : Position) : Place :=
  if p.branches = [] then .memory rfsmbLoc else .disk 0x5000

/-- The two blocks of the example. -/
theorem branched_leads {i : Nat} (hi : i < 0x100) :
    ∀ p ∈ ({atBranch, atBranch.sub i hi (by decide)} : Set Position),
      Leads .plain branched (.memory rfsmbLoc) p.branches (branchedPlace p) := by
  rintro p (rfl | rfl)
  · exact .here _
  · have hblock : branchLba1 branched.mem (rfsmbLoc + atBranch.index * branched.nodeSize) *
        blockBytesOf branched % wordSize = 0x5000 := by
      rw [branched_bytes]
      decide +kernel
    refine .unloaded ⟨by decide +kernel, by rw [branched_bytes]; decide⟩ (by decide +kernel) ?_
    rw [hblock]
    exact .here _

/-- With a node its branches are there. -/
theorem branched_closed {i : Nat} (hi : i < 0x100) :
    ∀ p ∈ ({atBranch, atBranch.sub i hi (by decide)} : Set Position), ∀ is j, p.branches = is ++ [j] →
      ∃ q ∈ ({atBranch, atBranch.sub i hi (by decide)} : Set Position), q.branches = is ∧ q.index = j := by
  rintro p (rfl | rfl) is j hconcat
  · exact absurd hconcat.symm (List.append_ne_nil_of_right_ne_nil _ (List.cons_ne_nil j []))
  · obtain ⟨rfl, hj⟩ := List.append_inj' (show [] ++ [3] = is ++ [j] from hconcat) rfl
    exact ⟨atBranch, .inl rfl, rfl, List.singleton_injective hj⟩

/-- The branch node and the node in entry 1 of its block. -/
theorem fptrs_decode_below :
    (∀ p ∈ ({atBranch, atBranch.sub 1 (by decide) (by decide)} : Set Position),
      Decodes .plain branched p (branchedPlace p)) ∧
    ∀ p ∈ ({atBranch, atBranch.sub 1 (by decide) (by decide)} : Set Position),
      ∀ q ∈ ({atBranch, atBranch.sub 1 (by decide) (by decide)} : Set Position),
        p.fptr = q.fptr → p = q :=
  (fptrs_decode_iff .plain branched branched_ready _ branchedPlace (branched_leads (by decide))
    (branched_closed (by decide))).mpr
      ⟨by rintro p (rfl | rfl) <;> decide, .inl branched_bytes⟩

/-- The node in entry 0 of the block has the pointer of the branch node. -/
theorem first_below_collides :
    ¬ ∀ p ∈ ({atBranch, atBranch.sub 0 (by decide) (by decide)} : Set Position),
      ∀ q ∈ ({atBranch, atBranch.sub 0 (by decide) (by decide)} : Set Position),
        p.fptr = q.fptr → p = q := by
  intro hinj
  have hsame := hinj _ (.inl rfl) _ (.inr rfl) (by decide)
  exact absurd (congrArg Position.branches hsame) (by decide)

end Frosk.Builder
