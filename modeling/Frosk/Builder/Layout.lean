import Mathlib.Tactic
import Frosk.Builder.Building
import Frosk.Builder.Positions

/-!
# The image builder: the image of a description

`write_fs` goes through the nodes of the metadata block and writes each of them, and the
contents of files between. The places of two nodes, of two files, and of a node and a file
have no byte in common, so in the end each of them holds what was written there.

* `writeFs_spec` — the image of everything that `parse_fsd` builds in the first metadata
  block has the header, all nodes and all files at their places.
-/

namespace Frosk.Builder

open Lib Fs

-- ---------------------------------------------------------------------------
-- Places
-- ---------------------------------------------------------------------------

/-- Nodes of a block do not overlap. -/
theorem tiles_apart {s : State} {ns : List Ptr} {a b : Nat} (h : Tiles s a ns b) {x y : Ptr}
    (hx : x ∈ ns) (hy : y ∈ ns) (hne : x ≠ y) :
    s.place x + (s.node x).size ≤ s.place y ∨ s.place y + (s.node y).size ≤ s.place x := by
  induction ns generalizing a with
  | nil => cases hx
  | cons n ns ih =>
    obtain ⟨hplace, -, hrest⟩ := h
    rcases List.mem_cons.mp hx with rfl | hx'
    · have hbehind := tiles_behind hrest ((List.mem_cons.mp hy).resolve_left (Ne.symm hne))
      exact .inl (hplace.symm ▸ hbehind)
    · rcases List.mem_cons.mp hy with rfl | hy'
      · have hbehind := tiles_behind hrest hx'
        exact .inr (hplace.symm ▸ hbehind)
      · exact ih hrest hx' hy'

/-- What `write_node` needs of a node. -/
structure Writable (H : Host) (s : Image) (n : Ptr) : Prop where
  fits : (nodeBytes H s n).length ≤ (s.node n).size
  leaf : (s.node n).type ≠ .BRANCH
  file : (s.node n).type = .BLOCK → ∃ name bytes, (s.block n).filename = some name ∧
    H.file name = some bytes ∧ (s.block n).size = bytes.length ∧ 3 ≤ (s.block n).lba ∧
    (s.block n).lba + blocksFor (s.block n).size ≤ s.nextLba

/-- Nothing is written for the node to the `len` bytes at `a`. -/
structure Clear (s : Image) (n : Ptr) (a len : Nat) : Prop where
  copy : ∀ bl < 2, a + len ≤ nodePlace s n bl ∨ nodePlace s n bl + (s.node n).size ≤ a
  data : (s.node n).type = .BLOCK → a + len ≤ (s.block n).lba * 0x1000 ∨
    ((s.block n).lba + blocksFor (s.block n).size) * 0x1000 ≤ a

/-- The image has the node, and if it is a block, the file. -/
structure Written (H : Host) (s : Image) (n : Ptr) (m : Memory) : Prop where
  node : m.slice (nodePlace s n 0) (nodeBytes H s n).length = nodeBytes H s n
  data : (s.node n).type = .BLOCK → ∀ name bytes, (s.block n).filename = some name →
    H.file name = some bytes → m.slice ((s.block n).lba * 0x1000) bytes.length = bytes

section Node

variable {H : Host} {s : Image} {n : Ptr}

/-- The bytes of a file of this size are the file. -/
theorem fileBytes_length (bytes : List UInt8) : fileBytes bytes bytes.length = bytes := by
  refine List.ext_getElem? ?_
  intro i
  rw [fileBytes, List.getElem?_map]
  by_cases hi : i < bytes.length
  · rw [List.getElem?_range hi, Option.map_some, List.getElem?_eq_getElem hi, Option.getD_some]
  · rw [List.getElem?_eq_none (by simpa using hi), List.getElem?_eq_none (by omega)]
    rfl

/-- A copy of a node, with zeros up to its size. -/
theorem writeCopy_eq (hw : Writable H s n) {bl : Nat} (hplace : nodePlace s n bl < 2 ^ 63) (f : Stream) :
    (writeCopy H s n bl f).bytes = f.bytes.blit (nodePlace s n bl) (nodeBytes H s n ++
      List.replicate ((s.node n).size - (nodeBytes H s n).length) 0) := by
  rw [← Memory.blit_over_zeros hw.fits]
  simp only [writeCopy, Stream.fwrite, fseek_pos hplace, fseek_bytes]

/-- The contents of a file, with zeros up to the end of a block. -/
theorem writeData_eq (hsize : s.blockSize = 0x1000) {name : CStr} {bytes : List UInt8}
    (hname : (s.block n).filename = some name) (hfile : H.file name = some bytes)
    (hlength : (s.block n).size = bytes.length) (hlow : (s.block n).lba * 0x1000 < 2 ^ 63) (f : Stream) :
    ∃ g, writeData H s n f = some g ∧ ∃ pad, bytes.length + pad ≤ blocksFor bytes.length * 0x1000 ∧
      g.bytes = f.bytes.blit ((s.block n).lba * 0x1000) (bytes ++ List.replicate pad 0) := by
  have hplace : 0x1000 * (s.block n).lba % wordSize = (s.block n).lba * 0x1000 := by
    rw [Nat.mul_comm]
    exact Nat.mod_eq_of_lt (by unfold wordSize; omega)
  have hwrite : ∀ (l : List UInt8) (pad : Nat),
      (((f.fseek ((s.block n).lba * 0x1000)).fwrite l).fwrite (List.replicate pad 0)).bytes =
        f.bytes.blit ((s.block n).lba * 0x1000) (l ++ List.replicate pad 0) := by
    intro l pad
    rw [← Memory.blit_append]
    simp only [Stream.fwrite, fseek_pos hlow, fseek_bytes]
  rw [writeData, hname]
  simp only [Option.bind_eq_bind, Option.bind_some, hfile, hsize, hlength, hplace, fileBytes_length]
  refine ⟨_, rfl, (0x1000 - bytes.length % 0x1000) % 0x1000, ?_, ?_⟩
  · unfold blocksFor
    omega
  · rw [fseek_bytes, hwrite]

end Node

section Block

variable {H : Host} {s : Image} {m n y : Ptr} {ns ds : List Ptr} {f : Option Ptr} {rem : Nat}
  {K : Finset CStr}

/-- Nodes lie in their block by their index. -/
theorem Bump.place_eq (h : Bump .default s.toState m ns f rem) (hn : n ∈ s.nodes) :
    s.toState.place n = (s.node n).ptr * 0x10 := by
  obtain ⟨-, hlt⟩ := h.ptr_bounds hn
  rw [State.place, (h.ours n hn).1, h.shift, h.entry_eq, pow_zero, Nat.div_one, Nat.mod_eq_of_lt hlt]
  rfl

/-- A node is behind the header, and in the block. -/
theorem Bump.place_bounds (h : Bump .default s.toState m ns f rem) (hn : n ∈ s.nodes) :
    0x30 ≤ s.toState.place n ∧ s.toState.place n + (s.node n).size ≤ 0x1000 := by
  have hmem := (h.mem_iff n).mpr hn
  have hbehind := tiles_behind h.block.tiles hmem
  have hwithin := tiles_within h.block.tiles hmem
  have hbegin : s.toState.behindHeader m = 0x30 := by
    rw [State.behindHeader, if_pos h.shift, State.hdrSize, h.entry_eq]
    rfl
  have hsize : s.blockSize = 0x1000 := h.size
  omega

/-- Both copies of the first metadata block are in the image behind the boot loader. -/
theorem Bump.copy_eq (h : Bump .default s.toState m ns f rem) (hlba : (s.metaAt m).lba = 1)
    (hn : n ∈ s.nodes) {bl : Nat} (hbl : bl < 2) :
    nodePlace s n bl = (1 + bl) * 0x1000 + s.toState.place n := by
  rw [h.nodePlace_eq hn (by omega) hbl, hlba, h.place_eq hn]
  rfl

/-- Nothing is written over another node. -/
theorem Bump.clear_node (h : Bump .default s.toState m ns f rem) (hlba : (s.metaAt m).lba = 1)
    (hn : n ∈ s.nodes) (hy : y ∈ s.nodes) (hne : n ≠ y) (hw : Writable H s y) :
    Clear s y (nodePlace s n 0) (s.node n).size := by
  obtain ⟨-, hhigh⟩ := h.place_bounds hn
  constructor
  · intro bl hbl
    have hapart := tiles_apart h.block.tiles ((h.mem_iff n).mpr hn) ((h.mem_iff y).mpr hy) hne
    rw [h.copy_eq hlba hn (by decide), h.copy_eq hlba hy hbl]
    obtain rfl | rfl : bl = 0 ∨ bl = 1 := by omega
    · omega
    · omega
  · intro hblock
    obtain ⟨-, -, -, -, -, hlow, -⟩ := hw.file hblock
    rw [h.copy_eq hlba hn (by decide)]
    omega

/-- Nothing is written over the data of a file. -/
theorem Bump.clear_data (h : Bump .default s.toState m ns f rem) (hlba : (s.metaAt m).lba = 1)
    (hy : y ∈ s.nodes) {a len : Nat} (hlow : 0x3000 ≤ a)
    (hapart : (s.node y).type = .BLOCK → a + len ≤ (s.block y).lba * 0x1000 ∨
      ((s.block y).lba + blocksFor (s.block y).size) * 0x1000 ≤ a) : Clear s y a len := by
  refine ⟨?_, hapart⟩
  intro bl hbl
  obtain ⟨-, hhigh⟩ := h.place_bounds hy
  rw [h.copy_eq hlba hy hbl]
  omega

/-- Files are apart. -/
theorem Content.blocks_apart (h : Content H s ds K) (hn : n ∈ ds) (hy : y ∈ ds) (hne : n ≠ y)
    (hnb : (s.node n).type = .BLOCK) (hyb : (s.node y).type = .BLOCK) :
    (s.block n).lba + blocksFor (s.block n).size ≤ (s.block y).lba ∨
      (s.block y).lba + blocksFor (s.block y).size ≤ (s.block n).lba := by
  let Apart := fun a b => (s.node a).type = .BLOCK → (s.node b).type = .BLOCK →
    (s.block a).lba + blocksFor (s.block a).size ≤ (s.block b).lba ∨
      (s.block b).lba + blocksFor (s.block b).size ≤ (s.block a).lba
  have hsymm : Std.Symm Apart := ⟨fun a b hab hb ha => (hab ha hb).symm⟩
  have hapart : ds.Pairwise Apart := h.apart.imp fun hab ha hb => .inl (hab ha hb)
  exact hapart.forall hn hy hne hnb hyb

/-- A node that is well formed can be written. -/
theorem Formed.writable (h : Formed H s n) : Writable H s n := by
  cases h with
  | common size type =>
    refine ⟨?_, ?_, ?_⟩
    · rcases type with ht | ht | ht <;> simp only [nodeBytes, ht, Memory.slice_length, le_refl]
    · rcases type with ht | ht | ht <;> simp [ht]
    · rcases type with ht | ht | ht <;> simp [ht]
  | string size type short length =>
    refine ⟨?_, by simp [type], by simp [type]⟩
    simp only [nodeBytes, type, List.length_append, Memory.slice_length, List.length_take,
      List.length_singleton, size, length, stringRoom, align]
    omega
  | block size type name bytes filename file length next low high =>
    refine ⟨?_, by simp [type], fun _ => ⟨name, bytes, filename, file, length, low, high⟩⟩
    simp only [nodeBytes, type, Memory.slice_length, le_refl]

/-- The free node at the end of the block. -/
theorem Bump.free_writable (h : Bump .default s.toState m ns f rem) (hf : n ∈ f) : Writable H s n := by
  obtain ⟨htype, -, -, hsize, hpos, -⟩ := h.rest n hf
  have hwhole : rem % 0x10 = 0 := h.whole
  refine ⟨?_, by simp [htype], by simp [htype]⟩
  simp only [nodeBytes, htype, Memory.slice_length, hsize]
  show 8 ≤ rem
  omega

end Block

-- ---------------------------------------------------------------------------
-- write_node
-- ---------------------------------------------------------------------------

section Writing

variable {H : Host} {s : Image} {m n : Ptr} {ns ds : List Ptr} {f : Option Ptr} {rem : Nat}
  {K : Finset CStr}

/-- What `write_data` writes: the bytes of a file to its blocks, and nothing for other nodes. -/
theorem writeData_spec (hsize : s.blockSize = 0x1000) (hend : s.nextLba * 0x1000 ≤ 2 ^ 63)
    (hw : Writable H s n) (f : Stream) :
    ∃ g, ((s.node n).type = .BLOCK → writeData H s n f = some g) ∧ ((s.node n).type ≠ .BLOCK → g = f) ∧
      ((s.node n).type = .BLOCK → ∀ name bytes, (s.block n).filename = some name →
        H.file name = some bytes → g.bytes.slice ((s.block n).lba * 0x1000) bytes.length = bytes) ∧
      ∀ a len, Clear s n a len → g.bytes.slice a len = f.bytes.slice a len := by
  by_cases hblock : (s.node n).type = .BLOCK
  · obtain ⟨name, bytes, hname, hfile, hlength, hlow, hhigh⟩ := hw.file hblock
    have hpos : 0 < blocksFor (s.block n).size := Nat.succ_pos _
    obtain ⟨g, hg, pad, hpad, hbytes⟩ := writeData_eq hsize hname hfile hlength (by omega) f
    refine ⟨g, fun _ => hg, fun h => absurd hblock h, ?_, ?_⟩
    · intro _ name' bytes' hname' hfile'
      obtain rfl := Option.some.inj (hname'.symm.trans hname)
      obtain rfl := Option.some.inj (hfile'.symm.trans hfile)
      rw [hbytes]
      exact Memory.slice_blit_left
    · intro a len hclear
      have hapart := hclear.data hblock
      rw [hbytes]
      refine Memory.slice_blit_of_disjoint ?_
      rw [List.length_append, List.length_replicate]
      rw [hlength, Nat.add_mul] at hapart
      omega
  · exact ⟨f, fun h => absurd h hblock, fun _ => rfl, fun h => absurd h hblock, fun _ _ _ => rfl⟩

/-- Both copies of a node are written to their places, and nothing else. -/
theorem writeCopies_spec (hbump : Bump .default s.toState m ns f rem) (hlba : (s.metaAt m).lba = 1)
    (hn : n ∈ s.nodes) (hw : Writable H s n) (f : Stream) :
    (writeCopy H s n 1 (writeCopy H s n 0 f)).bytes.slice (nodePlace s n 0) (nodeBytes H s n).length =
        nodeBytes H s n ∧
      ∀ a len, (∀ bl < 2, a + len ≤ nodePlace s n bl ∨ nodePlace s n bl + (s.node n).size ≤ a) →
        (writeCopy H s n 1 (writeCopy H s n 0 f)).bytes.slice a len = f.bytes.slice a len := by
  obtain ⟨-, hhigh⟩ := hbump.place_bounds hn
  have hplace₀ := hbump.copy_eq hlba hn (show 0 < 2 by decide)
  have hplace₁ := hbump.copy_eq hlba hn (show 1 < 2 by decide)
  have hfits := hw.fits
  have hlength : (nodeBytes H s n ++
      List.replicate ((s.node n).size - (nodeBytes H s n).length) 0).length = (s.node n).size := by
    rw [List.length_append, List.length_replicate]
    omega
  rw [writeCopy_eq hw (by omega), writeCopy_eq hw (by omega)]
  constructor
  · rw [Memory.slice_blit_of_disjoint (by omega)]
    exact Memory.slice_blit_left
  · intro a len hclear
    have h₀ := hclear 0 (by decide)
    have h₁ := hclear 1 (by decide)
    rw [Memory.slice_blit_of_disjoint (by omega), Memory.slice_blit_of_disjoint (by omega)]

/-- One node: what is written for it, and that the next one follows. -/
theorem writeNode_step (hbump : Bump .default s.toState m ns f rem) (hlba : (s.metaAt m).lba = 1)
    (hend : s.nextLba * 0x1000 ≤ 2 ^ 63) (hn : n ∈ s.nodes) (hw : Writable H s n)
    (hnext : (s.node n).next = NULL ∨ (s.node n).next ∈ s.nodes) (f : Stream) :
    ∃ g, (∀ k, writeNode H s (k + 1) n f = writeNode H s k (s.node n).next g) ∧
      Written H s n g.bytes ∧ ∀ a len, Clear s n a len → g.bytes.slice a len = f.bytes.slice a len := by
  obtain ⟨f₁, hblock, hother, hdata, hkeeps⟩ := writeData_spec hbump.size hend hw f
  obtain ⟨hself, hkeeps'⟩ := writeCopies_spec hbump hlba hn hw f₁
  refine ⟨writeCopy H s n 1 (writeCopy H s n 0 f₁), fun k => ?_, ⟨hself, fun h name bytes hname hfile => ?_⟩,
    fun a len hclear => ?_⟩
  · -- the assertions on the next node
    have hassert : ¬ ((s.node n).next ≠ NULL ∧ ((s.node (s.node n).next).location ≠ (s.node n).location ∨
        nextIndex s n = 0)) := by
      rintro ⟨hne, hbad⟩
      have hmem := hnext.resolve_left hne
      obtain ⟨hpos, hlt⟩ := hbump.ptr_bounds hmem
      rcases hbad with hloc | hzero
      · exact hloc ((hbump.ours _ hmem).1.trans (hbump.ours n hn).1.symm)
      · rw [nextIndex, if_pos hne, Image.index, (hbump.ours n hn).1, hbump.shift, pow_zero, Nat.div_one,
          Nat.mod_eq_of_lt hlt] at hzero
        omega
    rw [writeNode, if_neg (hbump.ours n hn).2, if_neg hassert]
    cases htype : (s.node n).type with
    | BLOCK =>
      rw [hblock htype]
      rfl
    | BRANCH => exact absurd htype hw.leaf
    | _ =>
      obtain rfl := hother (by rw [htype]; decide)
      rfl
  · obtain ⟨-, hhigh⟩ := hbump.place_bounds hn
    obtain ⟨name', bytes', -, -, -, hlow, -⟩ := hw.file h
    rw [hkeeps' _ _ fun bl hbl => ?_]
    · exact hdata h name bytes hname hfile
    · rw [hbump.copy_eq hlba hn hbl]
      omega
  · rw [hkeeps' a len hclear.copy, hkeeps a len hclear]

/-- The image keeps a node, and the file of a block, as long as nothing is written over them. -/
theorem Written.keeps {f g : Memory} (h : Written H s n f) (hw : Writable H s n)
    (hnode : g.slice (nodePlace s n 0) (s.node n).size = f.slice (nodePlace s n 0) (s.node n).size)
    (hdata : (s.node n).type = .BLOCK → g.slice ((s.block n).lba * 0x1000) (s.block n).size =
      f.slice ((s.block n).lba * 0x1000) (s.block n).size) : Written H s n g := by
  constructor
  · have hmin : min (nodeBytes H s n).length (s.node n).size = (nodeBytes H s n).length :=
      Nat.min_eq_left hw.fits
    have htake := congrArg (List.take (nodeBytes H s n).length) hnode
    rw [Memory.slice_take, Memory.slice_take, hmin] at htake
    exact htake.trans h.node
  · intro hblock name bytes hname hfile
    obtain ⟨name', bytes', hname', hfile', hlength, -⟩ := hw.file hblock
    obtain rfl := Option.some.inj (hname'.symm.trans hname)
    obtain rfl := Option.some.inj (hfile'.symm.trans hfile)
    rw [← hlength, hdata hblock, hlength]
    exact h.data hblock name' bytes' hname hfile

/-- The nodes of a block, one after the other. -/
theorem writeNode_run (hbump : Bump .default s.toState m ns f rem) (hlba : (s.metaAt m).lba = 1)
    (hend : s.nextLba * 0x1000 ≤ 2 ^ 63) (hw : ∀ n ∈ s.nodes, Writable H s n)
    (hfiles : ∀ x ∈ s.nodes, ∀ y ∈ s.nodes, x ≠ y → (s.node x).type = .BLOCK → (s.node y).type = .BLOCK →
      (s.block x).lba + blocksFor (s.block x).size ≤ (s.block y).lba ∨
        (s.block y).lba + blocksFor (s.block y).size ≤ (s.block x).lba)
    {l : List Ptr} {p : Ptr} (hl : ∀ n ∈ l, n ∈ s.nodes) (hnodup : l.Nodup)
    (hlinks : Linked (fun n => (s.node n).prev) (fun n => (s.node n).next) p l NULL) (f : Stream) :
    ∃ g, (∀ k, l.length < k → writeNode H s k (l.headD NULL) f = some g) ∧
      (∀ n ∈ l, Written H s n g.bytes) ∧
      ∀ a len, (∀ n ∈ l, Clear s n a len) → g.bytes.slice a len = f.bytes.slice a len := by
  induction l generalizing p f with
  | nil =>
    refine ⟨f, fun k hk => ?_, nofun, fun _ _ _ => rfl⟩
    obtain ⟨k, rfl⟩ := Nat.exists_eq_succ_of_ne_zero (Nat.ne_of_gt hk)
    rfl
  | cons n l ih =>
    obtain ⟨-, hnext, hlinks⟩ := hlinks
    obtain ⟨hnew, hnodup⟩ := List.nodup_cons.mp hnodup
    have hn := hl n List.mem_cons_self
    have hl' : ∀ n ∈ l, n ∈ s.nodes := fun y hy => hl y (List.mem_cons_of_mem _ hy)
    have hnull : (s.node n).next = NULL ∨ (s.node n).next ∈ s.nodes := by
      cases l with
      | nil => exact .inl hnext
      | cons y l =>
        right
        rw [show (s.node n).next = y from hnext]
        exact hl' y List.mem_cons_self
    obtain ⟨f₁, hrun₁, hwritten₁, hkeeps₁⟩ := writeNode_step hbump hlba hend hn (hw n hn) hnull f
    obtain ⟨g, hrun, hwritten, hkeeps⟩ := ih hl' hnodup hlinks f₁
    refine ⟨g, ?_, ?_, ?_⟩
    · intro k hk
      obtain ⟨k, rfl⟩ := Nat.exists_eq_succ_of_ne_zero (Nat.ne_of_gt (Nat.zero_lt_of_lt hk))
      rw [List.headD_cons, hrun₁, show (s.node n).next = l.headD NULL from hnext]
      exact hrun k (by rw [List.length_cons] at hk; omega)
    · intro y hy
      rcases List.mem_cons.mp hy with rfl | hy
      · -- what is written for the nodes behind does not touch this one
        have hne : ∀ x ∈ l, y ≠ x := fun x hx hyx => hnew (hyx ▸ hx)
        refine hwritten₁.keeps (hw y hn) (hkeeps _ _ fun x hx => ?_) fun hblock =>
          hkeeps _ _ fun x hx => ?_
        · exact hbump.clear_node hlba hn (hl' x hx) (hne x hx) (hw x (hl' x hx))
        · obtain ⟨-, -, -, -, -, hlow, -⟩ := (hw y hn).file hblock
          refine hbump.clear_data hlba (hl' x hx) (by omega) ?_
          intro hblock'
          have hapart := hfiles y hn x (hl' x hx) (hne x hx) hblock hblock'
          unfold blocksFor at *
          omega
      · exact hwritten y hy
    · intro a len hclear
      rw [hkeeps a len fun x hx => hclear x (List.mem_cons_of_mem _ hx),
        hkeeps₁ a len (hclear n List.mem_cons_self)]

/-- The headers are not written over any node or file. -/
theorem writeHeaders_keeps (hsize : s.blockSize = 0x1000) {a len : Nat} (f : Stream)
    (hclear : ∀ bl < 2, a + len ≤ (1 + bl) * 0x1000 ∨ (1 + bl) * 0x1000 + 0x20 ≤ a) :
    ((((f.fseek s.blockSize).fwrite (header s)).fseek (s.blockSize * 2 % uintSize)).fwrite
      (header s)).bytes.slice a len = f.bytes.slice a len := by
  have hlength : (header s).length = 0x20 := header_length s
  have hplace : s.blockSize * 2 % uintSize = 0x2000 := by
    rw [hsize]
    rfl
  have h₀ := hclear 0 (by decide)
  have h₁ := hclear 1 (by decide)
  rw [hplace, hsize, slice_fwrite_of_disjoint (by decide) (by omega),
    slice_fwrite_of_disjoint (by decide) (by omega)]

/-- The image of complete nodes has the header, the nodes and the files at their places. -/
theorem writeFs_spec (h : Laid H s m ns ds rem K) (hnull : m ≠ NULL) (hdone : ∀ n ∈ ns, n ∈ ds)
    (hend : s.nextLba * 0x1000 ≤ 2 ^ 63) :
    ∃ g, Settles (fun k => writeFs H s k .new) g ∧ g.bytes.slice 0x1000 sizeofHeader = header s ∧
      ∀ n ∈ ds, Written H s n g.bytes := by
  obtain ⟨f, hbump⟩ := h.bump
  have hsize : s.blockSize = 0x1000 := hbump.size
  have hw : ∀ n ∈ s.nodes, Writable H s n := by
    intro n hn
    rcases List.mem_append.mp ((hbump.mem_iff n).mpr hn) with hn | hn
    · exact (h.content.formed n (hdone n hn)).writable
    · exact hbump.free_writable (Option.mem_toList.mp hn)
  -- only complete nodes are blocks
  have hblock : ∀ n ∈ s.nodes, (s.node n).type = .BLOCK → n ∈ ds := by
    intro n hn htype
    rcases List.mem_append.mp ((hbump.mem_iff n).mpr hn) with hn | hn
    · exact hdone n hn
    · have hfree := (hbump.rest n (Option.mem_toList.mp hn)).1
      exact absurd (hfree.symm.trans htype) (by decide)
  obtain ⟨g, hrun, hwritten, -⟩ := writeNode_run hbump h.lba hend hw
    (fun x hx y hy hne hxb hyb => h.content.blocks_apart (hblock x hx hxb) (hblock y hy hyb) hne hxb hyb)
    (fun n hn => (hbump.mem_iff n).mp hn) hbump.nodup hbump.block.links
    ((Stream.new.fseek 0).fwrite (List.replicate s.blockSize 0))
  have hfirst : (s.metaAt s.firstMeta).first = (ns ++ f.toList).headD NULL := by
    rw [h.first]
    exact hbump.block.first
  have hfs : ∀ k, (ns ++ f.toList).length < k → writeFs H s k .new =
      some ((((g.fseek s.blockSize).fwrite (header s)).fseek (s.blockSize * 2 % uintSize)).fwrite
        (header s)) := by
    intro k hk
    rw [writeFs, if_neg (h.first ▸ hnull), hfirst]
    simp only [hrun k hk, Option.bind_eq_bind, Option.bind_some]
  refine ⟨_, ⟨_, fun k hk => hfs k hk⟩, ?_, fun n hn => ?_⟩
  · have hheader := writeFs_header (hfs _ (Nat.lt_succ_self _)) (by rw [hsize]; decide)
      (by rw [hsize]; decide) (show 0 < 2 by decide)
    have hplace : headerPlace s 0 = 0x1000 := by
      rw [headerPlace, hsize]
      rfl
    rwa [hplace] at hheader
  · have hnode : n ∈ s.nodes := (hbump.mem_iff n).mp (List.mem_append_left _ (h.given n hn))
    obtain ⟨hlow, hhigh⟩ := hbump.place_bounds hnode
    have hw' := hwritten n (List.mem_append_left _ (h.given n hn))
    refine hw'.keeps (hw n hnode) ?_ fun htype => ?_
    · refine writeHeaders_keeps hsize g ?_
      intro bl hbl
      rw [hbump.copy_eq h.lba hnode (by decide)]
      omega
    · refine writeHeaders_keeps hsize g ?_
      intro bl hbl
      obtain ⟨-, -, -, -, -, hlba, -⟩ := (hw n hnode).file htype
      omega

end Writing

end Frosk.Builder
