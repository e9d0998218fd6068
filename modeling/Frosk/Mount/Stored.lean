import Mathlib.Tactic
import Frosk.Builder.Layout
import Frosk.Mount.Definitions

/-!
# Images in the kernel: what is in memory

The kernel works on the first metadata block of the image, which is in memory, and on the
disk. `Stored` says in terms of the fields that the kernel reads that a description is
there, and `image_ready` that it is, for what the builder wrote.
-/

namespace Frosk.Mount

open Lib Fs
open Builder (Fsd Host Image)

-- ---------------------------------------------------------------------------
-- Descriptions in memory
-- ---------------------------------------------------------------------------

/-- Where the kernel finds the node of a pointer to the first metadata block. -/
def addr (p : Nat) : Nat := rfsmbLoc + p * 0x10

/-- `p` is a pointer to the first metadata block. -/
def Inner (p : Nat) : Prop := p ≠ 0 ∧ p < 0x100

/-- The node of a string. -/
structure StringNode (M : Memory) (p : Nat) (str : CStr) : Prop where
  inner : Inner p
  type  : nodeType M (addr p) = some .STRING
  value : strAt M 2000 (fnodeString (addr p)) = some str

/-- The node of an entry, as far as all entries are alike. -/
structure EntryNode (M : Memory) (p : Nat) (name : CStr) (type : FnodeType) : Prop where
  inner : Inner p
  type  : nodeType M (addr p) = some type
  name  : StringNode M (commonName M (addr p)) name

/-- The block node of a file, and its contents on the disk. -/
structure FileNode (H : Host) (M D : Memory) (p : Nat) (actual : CStr) (bytes : List UInt8) : Prop where
  inner : Inner p
  type  : nodeType M (addr p) = some .BLOCK
  next  : blockNext M (addr p) = 0
  size  : blockSize M (addr p) = bytes.length
  file  : H.file actual = some bytes
  fits  : blockLba M (addr p) * 0x1000 + bytes.length ≤ 2 ^ 63
  disk  : D.slice (blockLba M (addr p) * 0x1000) bytes.length = bytes

/-- The chain of nodes from `p` to `q` has the entries of the description, the last of them
first. -/
def Stored (H : Host) (M D : Memory) : Fsd → Nat → Nat → Prop
  | .done, q, p => p = q
  | .file fields actual rest, q, p => ∃ x, EntryNode M x fields.name .FILE ∧ commonNext M (addr x) = q ∧
      (∃ bytes, FileNode H M D (commonData M (addr x)) actual bytes) ∧ Stored H M D rest x p
  | .dir fields contents rest, q, p => ∃ x, EntryNode M x fields.name .DIRECTORY ∧
      commonNext M (addr x) = q ∧ Stored H M D contents 0 (commonData M (addr x)) ∧ Stored H M D rest x p
  | .indir fields target rest, q, p => ∃ x, EntryNode M x fields.name .INDIRECT ∧
      commonNext M (addr x) = q ∧ StringNode M (commonData M (addr x)) target ∧ Stored H M D rest x p

/-- What the node of an entry leads to. -/
def Leads (H : Host) (M D : Memory) (p : Nat) : Kind → Prop
  | .file actual => ∃ bytes, FileNode H M D p actual bytes
  | .dir contents => Stored H M D contents 0 p
  | .indir target => StringNode M p target

/-- The node of an entry, with what it leads to. -/
structure RowNode (H : Host) (M D : Memory) (p : Nat) (r : CStr × Kind) : Prop where
  entry : EntryNode M p r.1 r.2.nodeType
  leads : Leads H M D (commonData M (addr p)) r.2

/-- The chain of nodes from `p` on, in its order. -/
def RowNodes (H : Host) (M D : Memory) : Nat → List (CStr × Kind) → Prop
  | p, [] => p = 0
  | p, r :: rs => RowNode H M D p r ∧ RowNodes H M D (commonNext M (addr p)) rs

/-- A stored description has a node for each row. -/
theorem Stored.rowNodes {H : Host} {M D : Memory} {fsd : Fsd} {q p : Nat} {rs : List (CStr × Kind)}
    (h : Stored H M D fsd q p) (hq : RowNodes H M D q rs) :
    RowNodes H M D p ((rows fsd).reverse ++ rs) := by
  induction fsd generalizing q rs with
  | done =>
    obtain rfl : p = q := h
    exact hq
  | file fields actual rest ih =>
    obtain ⟨x, hentry, rfl, hfile, hrest⟩ := h
    rw [rows, List.reverse_cons, List.append_assoc]
    exact ih hrest ⟨⟨hentry, hfile⟩, hq⟩
  | dir fields contents rest ihc ih =>
    obtain ⟨x, hentry, rfl, hcontents, hrest⟩ := h
    rw [rows, List.reverse_cons, List.append_assoc]
    exact ih hrest ⟨⟨hentry, hcontents⟩, hq⟩
  | indir fields target rest ih =>
    obtain ⟨x, hentry, rfl, htarget, hrest⟩ := h
    rw [rows, List.reverse_cons, List.append_assoc]
    exact ih hrest ⟨⟨hentry, htarget⟩, hq⟩

-- ---------------------------------------------------------------------------
-- The fields that the builder writes
-- ---------------------------------------------------------------------------

section Fields

variable {H : Host} {s : Image} {n : Ptr} {M : Memory} {a : Nat}

/-- The code of a type is one byte. -/
theorem code_lt (t : FnodeType) : t.code < 256 ^ 1 := by
  cases t <;> decide

/-- The code of the type is the first byte of its node. -/
theorem fnode_type : (Builder.fnode H s n).get 1 0 = (s.node n).type.code := by
  unfold Builder.fnode
  split <;> rename_i htype <;> rw [htype] <;>
    simp (disch := omega) only [Memory.get_put_of_disjoint] <;>
    exact Memory.get_put_self (code_lt _)

/-- The kernel reads the type from this byte. -/
theorem nodeType_of_slice {k : Nat} (h : M.slice a k = (Builder.fnode H s n).slice 0 k) (hk : 1 ≤ k) :
    nodeType M a = some (s.node n).type := by
  have hget := Memory.get_of_slice_eq (i := 0) (k := 1) h hk
  rw [Nat.add_zero, Nat.add_zero, fnode_type] at hget
  rw [nodeType, hget, FnodeType.decode_code]

/-- The fields of an entry. -/
theorem common_of_slice (htype : (s.node n).type = .FILE ∨ (s.node n).type = .DIRECTORY ∨
      (s.node n).type = .INDIRECT) (h : M.slice a 32 = (Builder.fnode H s n).slice 0 32) :
    (Builder.getptr s (s.common n).name < 0x100 → commonName M a = Builder.getptr s (s.common n).name) ∧
    (Builder.getptr s (s.common n).next < 0x100 → commonNext M a = Builder.getptr s (s.common n).next) ∧
    (Builder.getptr s (s.common n).data < 0x100 → commonData M a = Builder.getptr s (s.common n).data) := by
  have hfnode : ∃ wn : Memory, Builder.fnode H s n = ((((wn.put 2 2 (s.common n).perm).put 4 4
      (Builder.getptr s (s.common n).name)).put 4 8 (Builder.getptr s (s.common n).owner)).put 4 12
      (Builder.getptr s (s.common n).next)).put 4 16 (Builder.getptr s (s.common n).data) := by
    rcases htype with ht | ht | ht <;> simp only [Builder.fnode, ht] <;> exact ⟨_, rfl⟩
  obtain ⟨wn, hfnode⟩ := hfnode
  have hbound : ∀ {v : Nat}, v < 0x100 → v < 256 ^ 4 := fun hv => hv.trans (by decide)
  have hget : ∀ i, i + 4 ≤ 32 → M.get 4 (a + i) = (Builder.fnode H s n).get 4 (0 + i) :=
    fun i hi => Memory.get_of_slice_eq h hi
  refine ⟨?_, ?_, ?_⟩
  · intro hname
    rw [commonName, hget 4 (by decide), hfnode]
    simp (disch := omega) only [Nat.zero_add, Memory.get_put_of_disjoint]
    exact Memory.get_put_self (hbound hname)
  · intro hnext
    rw [commonNext, hget 12 (by decide), hfnode]
    simp (disch := omega) only [Nat.zero_add, Memory.get_put_of_disjoint]
    exact Memory.get_put_self (hbound hnext)
  · intro hdata
    rw [commonData, hget 16 (by decide), hfnode]
    exact Memory.get_put_self (hbound hdata)

/-- The fields of a block node. -/
theorem block_of_slice (htype : (s.node n).type = .BLOCK)
    (h : M.slice a 32 = (Builder.fnode H s n).slice 0 32)
    (hnext : (s.block n).next = NULL) (hlba : (s.block n).lba < wordSize)
    (hsize : (s.block n).size < wordSize) :
    blockNext M a = 0 ∧ blockLba M a = (s.block n).lba ∧ blockSize M a = (s.block n).size := by
  have hfnode : ∃ wn : Memory, Builder.fnode H s n =
      ((wn.put 4 4 (Builder.getptr s (s.block n).next)).put 8 8 (s.block n).lba).put 8 16
        (s.block n).size := by
    simp only [Builder.fnode, htype]
    exact ⟨_, rfl⟩
  obtain ⟨wn, hfnode⟩ := hfnode
  have hzero : Builder.getptr s (s.block n).next = 0 := if_pos hnext
  refine ⟨?_, ?_, ?_⟩
  · rw [blockNext, Memory.get_of_slice_eq (i := 4) h (by decide), hfnode, hzero]
    simp (disch := omega) only [Nat.zero_add, Memory.get_put_of_disjoint]
    exact Memory.get_put_self (by decide)
  · rw [blockLba, Memory.get_of_slice_eq (i := 8) h (by decide), hfnode]
    simp (disch := omega) only [Nat.zero_add, Memory.get_put_of_disjoint]
    exact Memory.get_put_self hlba
  · rw [blockSize, Memory.get_of_slice_eq (i := 16) h (by decide), hfnode]
    exact Memory.get_put_self hsize

end Fields

-- ---------------------------------------------------------------------------
-- What the builder wrote
-- ---------------------------------------------------------------------------

/-- The memory from `0x1000` on is the block of the image with the first metadata block. -/
def Loaded (M B : Memory) : Prop := ∀ a, 0x1000 ≤ a → a < 0x2000 → M a = B a

section Bridge

variable {H : Host} {s : Image} {m n q p : Ptr} {ns ds es : List Ptr} {rem : Nat} {K : Finset CStr}
  {M B : Memory} {str : CStr}

/-- The image that `write_fs` wrote for complete nodes, with its first metadata block in memory. -/
structure InMemory (H : Host) (s : Image) (m : Ptr) (ns ds : List Ptr) (rem : Nat) (K : Finset CStr)
    (M B : Memory) : Prop where
  laid    : Builder.Laid H s m ns ds rem K
  short   : s.nextLba * 0x1000 ≤ 2 ^ 63
  written : ∀ n ∈ ds, Builder.Written H s n B
  loaded  : Loaded M B

/-- A node of the image is in its one block. -/
theorem InMemory.getptr_inner (h : InMemory H s m ns ds rem K M B) (hn : n ∈ ds) :
    Inner (Builder.getptr s n) := by
  obtain ⟨f, hbump⟩ := h.laid.bump
  have hnode := (hbump.mem_iff n).mp (List.mem_append_left _ (h.laid.given n hn))
  obtain ⟨hpos, hlt⟩ := hbump.ptr_bounds hnode
  rw [Builder.getptr, if_neg (hbump.ours n hnode).2]
  exact ⟨hpos.ne', hlt⟩

/-- The bytes of a node in memory. -/
theorem InMemory.slice (h : InMemory H s m ns ds rem K M B) (hn : n ∈ ds) :
    M.slice (addr (Builder.getptr s n)) (Builder.nodeBytes H s n).length = Builder.nodeBytes H s n := by
  obtain ⟨f, hbump⟩ := h.laid.bump
  have hnode := (hbump.mem_iff n).mp (List.mem_append_left _ (h.laid.given n hn))
  have hplace : Builder.nodePlace s n 0 = addr (Builder.getptr s n) := by
    rw [hbump.copy_eq h.laid.lba hnode (by decide), hbump.place_eq hnode, Builder.getptr,
      if_neg (hbump.ours n hnode).2]
    rfl
  obtain ⟨-, hhigh⟩ := hbump.place_bounds hnode
  have hfits := (h.laid.content.formed n hn).writable.fits
  have hcopy := hbump.copy_eq h.laid.lba hnode (show 0 < 2 by decide)
  have hsame := (h.written n hn).node
  rw [hplace] at hsame hcopy
  refine Eq.trans (Memory.slice_congr fun i hi => ?_) hsame
  exact h.loaded _ (by omega) (by omega)

/-- The bytes of a node are in memory where its pointer leads. -/
theorem InMemory.fnode (h : InMemory H s m ns ds rem K M B) (hn : n ∈ ds) {k : Nat} {rest : List UInt8}
    (hbytes : Builder.nodeBytes H s n = (Builder.fnode H s n).slice 0 k ++ rest) :
    M.slice (addr (Builder.getptr s n)) k = (Builder.fnode H s n).slice 0 k := by
  have hslice := congrArg (List.take k) (h.slice hn)
  rw [Memory.slice_take, hbytes, List.length_append, Memory.slice_length,
    Nat.min_eq_left (Nat.le_add_right ..)] at hslice
  rw [hslice, List.take_left' Memory.slice_length]

/-- A string of the builder is one for the kernel. -/
theorem InMemory.stringNode (h : InMemory H s m ns ds rem K M B) (hstr : Builder.IsString s ds n str) :
    StringNode M (Builder.getptr s n) str := by
  obtain ⟨hmem, htype, rfl⟩ := hstr
  have hbytes : Builder.nodeBytes H s n = (Builder.fnode H s n).slice 0 16 ++
      ((s.string n).value.chars ++ [0]).take (s.string n).size := by
    simp only [Builder.nodeBytes, htype]
    rfl
  cases h.laid.content.formed n hmem with
  | common size type =>
    rw [htype] at type
    simp at type
  | block size type =>
    rw [htype] at type
    cases type
  | string size type short length =>
    have htake : ((s.string n).value.chars ++ [0]).take (s.string n).size =
        (s.string n).value.chars ++ [0] := by
      rw [length]
      exact List.take_of_length_le (by simp)
    rw [htake] at hbytes
    have hchars := congrArg (List.drop 16) (h.slice hmem)
    rw [hbytes, List.drop_left' Memory.slice_length, List.length_append, Memory.slice_length,
      Memory.slice_append, List.drop_left' Memory.slice_length, List.length_append,
      List.length_singleton] at hchars
    refine ⟨h.getptr_inner hmem, ?_, ?_⟩
    · rw [nodeType_of_slice (h.fnode hmem hbytes) (by decide), htype]
    · exact strAt_of_slice hchars (by omega)

/-- Each pointer of the image is within the block. -/
theorem InMemory.getptr_lt (h : InMemory H s m ns ds rem K M B) (hn : n = NULL ∨ n ∈ ds) :
    Builder.getptr s n < 0x100 := by
  rcases hn with rfl | hn
  · exact (if_pos rfl).trans_lt (by decide)
  · exact (h.getptr_inner hn).2

/-- The node of an entry, with the pointers in it. -/
theorem InMemory.entryNode {t : FnodeType} {fields : Builder.Fields} {a : Builder.Attr}
    (h : InMemory H s m ns ds rem K M B) (hshaped : Builder.Shaped s ds n t fields a)
    (ht : t = .FILE ∨ t = .DIRECTORY ∨ t = .INDIRECT)
    (hnext : (s.common n).next = NULL ∨ (s.common n).next ∈ ds)
    (hdata : (s.common n).data = NULL ∨ (s.common n).data ∈ ds) :
    EntryNode M (Builder.getptr s n) fields.name t ∧
      commonNext M (addr (Builder.getptr s n)) = Builder.getptr s (s.common n).next ∧
      commonData M (addr (Builder.getptr s n)) = Builder.getptr s (s.common n).data := by
  have htype := hshaped.type
  have hmem := hshaped.mem
  have hbytes : (s.node n).size = 32 → Builder.nodeBytes H s n =
      (Builder.fnode H s n).slice 0 32 ++ [] := by
    intro hsize
    rw [List.append_nil]
    rcases ht with rfl | rfl | rfl <;> simp only [Builder.nodeBytes, htype, hsize]
  cases h.laid.content.formed n hmem with
  | string size type =>
    rw [htype] at type
    subst type
    simp at ht
  | block size type =>
    rw [htype] at type
    subst type
    simp at ht
  | common size type =>
    have hslice := h.fnode hmem (hbytes size)
    obtain ⟨hname, hnext', hdata'⟩ := common_of_slice type hslice
    refine ⟨⟨h.getptr_inner hmem, ?_, ?_⟩, hnext' (h.getptr_lt hnext), hdata' (h.getptr_lt hdata)⟩
    · rw [nodeType_of_slice hslice (by decide), htype]
    · rw [hname (h.getptr_lt (.inr hshaped.name.mem))]
      exact h.stringNode hshaped.name

/-- A file block of the builder is a file for the kernel. -/
theorem InMemory.fileNode {actual : CStr} (h : InMemory H s m ns ds rem K M B)
    (hblock : Builder.IsBlock s ds n actual) : ∃ bytes, FileNode H M B (Builder.getptr s n) actual bytes := by
  obtain ⟨hmem, htype, hname⟩ := hblock
  cases h.laid.content.formed n hmem with
  | common size type =>
    rw [htype] at type
    simp at type
  | string size type =>
    rw [htype] at type
    cases type
  | block size type name bytes filename file length next low high =>
    obtain rfl : name = actual := Option.some.inj (filename.symm.trans hname)
    have hbytes : Builder.nodeBytes H s n = (Builder.fnode H s n).slice 0 32 ++ [] := by
      rw [List.append_nil]
      simp only [Builder.nodeBytes, htype, size]
    have hslice := h.fnode hmem hbytes
    unfold Builder.blocksFor at high
    have hend : (s.block n).lba * 0x1000 + bytes.length ≤ s.nextLba * 0x1000 := by omega
    have hfits := hend.trans h.short
    obtain ⟨hnext', hlba', hsize'⟩ := block_of_slice htype hslice next
      (by unfold wordSize; omega) (by unfold wordSize; omega)
    refine ⟨bytes, h.getptr_inner hmem, ?_, hnext', hsize'.trans length, file, ?_, ?_⟩
    · rw [nodeType_of_slice hslice (by decide), htype]
    · rw [hlba']
      exact hfits
    · rw [hlba']
      exact (h.written n hmem).data htype name bytes filename file

/-- What the builder grew is stored. -/
theorem InMemory.stored (h : InMemory H s m ns ds rem K M B) {fsd : Fsd} {a : Builder.Attr}
    (hgrown : Builder.Grown s ds es fsd a q p) (hq : q = NULL ∨ q ∈ ds) :
    Stored H M B fsd (Builder.getptr s q) (Builder.getptr s p) ∧ (p = NULL ∨ p ∈ ds) := by
  induction fsd generalizing a q p with
  | done =>
    obtain rfl : p = q := hgrown
    exact ⟨rfl, hq⟩
  | file fields actual rest ih =>
    obtain ⟨x, -, hshaped, rfl, hblock, hrest⟩ := hgrown
    obtain ⟨hentry, hnext, hdata⟩ := h.entryNode hshaped (.inl rfl) hq (.inr hblock.mem)
    obtain ⟨hstored, hp⟩ := ih hrest (.inr hshaped.mem)
    refine ⟨⟨_, hentry, hnext, ?_, hstored⟩, hp⟩
    rw [hdata]
    exact h.fileNode hblock
  | dir fields contents rest ihc ih =>
    obtain ⟨x, -, hshaped, rfl, hcontents, hrest⟩ := hgrown
    obtain ⟨hinner, hin⟩ := ihc hcontents (.inl rfl)
    obtain ⟨hentry, hnext, hdata⟩ := h.entryNode hshaped (.inr (.inl rfl)) hq hin
    obtain ⟨hstored, hp⟩ := ih hrest (.inr hshaped.mem)
    refine ⟨⟨_, hentry, hnext, ?_, hstored⟩, hp⟩
    rw [hdata]
    exact hinner
  | indir fields target rest ih =>
    obtain ⟨x, -, hshaped, rfl, htarget, hrest⟩ := hgrown
    obtain ⟨hentry, hnext, hdata⟩ := h.entryNode hshaped (.inr (.inr rfl)) hq (.inr htarget.mem)
    obtain ⟨hstored, hp⟩ := ih hrest (.inr hshaped.mem)
    refine ⟨⟨_, hentry, hnext, ?_, hstored⟩, hp⟩
    rw [hdata]
    exact h.stringNode htarget

end Bridge

/-- What the kernel needs to use an image: the header, and below the root the description. -/
structure Ready (H : Host) (M D : Memory) (fsd : Fsd) : Prop where
  page   : headerPageSize M rfsmbLoc = 0x1000
  root   : Inner (headerRoot M rfsmbLoc)
  type   : nodeType M (addr (headerRoot M rfsmbLoc)) = some .DIRECTORY
  stored : Stored H M D fsd 0 (commonData M (addr (headerRoot M rfsmbLoc)))

/-- The header has the size of a block and the root. -/
theorem header_of_slice {s : Image} {M : Memory} {a : Nat} (h : M.slice a sizeofHeader = Builder.header s)
    (hsize : s.blockSize = 0x1000) (hroot : Builder.getptr s s.root < 0x100) :
    headerPageSize M a = 0x1000 ∧ headerRoot M a = Builder.getptr s s.root := by
  constructor
  · have hword : ((Builder.header s).drop 8).take 4 = leBytes 4 s.blockSize := rfl
    rw [headerPageSize, Memory.get_of_slice h (by decide), hword, fromLE_leBytes, hsize]
    rfl
  · have hword : ((Builder.header s).drop 16).take 4 = leBytes 4 (Builder.getptr s s.root) := rfl
    rw [headerRoot, Memory.get_of_slice h (by decide), hword, fromLE_leBytes]
    exact Nat.mod_eq_of_lt (hroot.trans (by decide))

/-- A node is on every disk that is as the image from block 1 to the end of the files. -/
theorem written_of_same {H : Host} {s : Image} {m n : Ptr} {ns ds : List Ptr} {rem : Nat} {K : Finset CStr}
    {D B : Memory} (hlaid : Builder.Laid H s m ns ds rem K) (hn : n ∈ ds) (h : Builder.Written H s n B)
    (hend : 3 ≤ s.nextLba)
    (hsame : ∀ a, 0x1000 ≤ a → a < s.nextLba * 0x1000 → D a = B a) : Builder.Written H s n D := by
  obtain ⟨f, hbump⟩ := hlaid.bump
  have hnode := (hbump.mem_iff n).mp (List.mem_append_left _ (hlaid.given n hn))
  have hw := (hlaid.content.formed n hn).writable
  obtain ⟨-, hhigh⟩ := hbump.place_bounds hnode
  have hplace := hbump.copy_eq hlaid.lba hnode (show 0 < 2 by decide)
  refine h.keeps hw (Memory.slice_congr fun i hi => hsame _ (by omega) (by omega)) fun htype => ?_
  obtain ⟨-, -, -, -, -, hlow, hlast⟩ := hw.file htype
  unfold Builder.blocksFor at hlast
  exact Memory.slice_congr fun i hi => hsame _ (by omega) (by omega)

/-- The image of a description that fits in the first metadata block, for the default options, on
a disk that has it from block 1 on. -/
theorem image_kept (H : Host) (rperm : Nat) (rowner : Option CStr) (fsd : Fsd) (s : Image)
    (hshort : Builder.Short (rowner.toFinset ∪ fsd.strings)) (hread : fsd.Readable H)
    (hend : (3 + fsd.blocks H) * 0x1000 ≤ 2 ^ 63)
    (hroom : 32 + fsd.room + Builder.need (rowner.toFinset ∪ fsd.strings) ∅ ≤
      Builder.BlockSize.default.room) :
    ∃ s' g, Settles (fun k => Builder.parseFsd H k 0x1000 1 rperm rowner fsd s) s' ∧
      Settles (fun k => Builder.writeFs H s' k .new) g ∧
      g.bytes.slice 0x1000 8 = Builder.froskFsMark ∧
      ∀ D M, (∀ a, 0x1000 ≤ a → a < (3 + fsd.blocks H) * 0x1000 → D a = g.bytes a) → Loaded M D →
        Ready H M D fsd := by
  obtain ⟨s', m, ns, ds, es, rem, K, hparse, hbuilt⟩ := Builder.parseFsd_spec H rperm rowner fsd s
    hshort hread (by unfold wordSize; omega) hroom
  have hshort' : s'.nextLba * 0x1000 ≤ 2 ^ 63 := by
    rw [hbuilt.lba]
    exact hend
  obtain ⟨g, hwrite, hheader, hwritten⟩ := Builder.writeFs_spec hbuilt.laid hbuilt.null hbuilt.done hshort'
  refine ⟨s', g, hparse, hwrite, ?_, ?_⟩
  · have hmark := congrArg (List.take 8) hheader
    rw [Memory.slice_take] at hmark
    exact hmark
  intro D M hD hM
  rw [← hbuilt.lba] at hD
  have hlba : 3 ≤ s'.nextLba := hbuilt.lba ▸ Nat.le_add_right ..
  have hin : InMemory H s' m ns ds rem K M D := ⟨hbuilt.laid, hshort',
    fun n hn => written_of_same hbuilt.laid hn (hwritten n hn) hlba hD, hM⟩
  have hsize : s'.blockSize = 0x1000 := by
    obtain ⟨f, hbump⟩ := hbuilt.laid.bump
    exact hbump.size
  have hslice : M.slice rfsmbLoc sizeofHeader = Builder.header s' := by
    refine Eq.trans (Memory.slice_congr fun i hi => ?_) hheader
    have hlt : i < 32 := hi
    rw [hM _ (Nat.le_add_right ..) (show 0x1000 + i < 0x2000 by omega)]
    exact hD _ (Nat.le_add_right ..) (show 0x1000 + i < s'.nextLba * 0x1000 by omega)
  obtain ⟨hpage, hroot⟩ := header_of_slice hslice hsize (hin.getptr_lt (.inr hbuilt.root))
  obtain ⟨hstored, hdata⟩ := hin.stored hbuilt.grown (.inl rfl)
  have hbytes : Builder.nodeBytes H s' s'.root = (Builder.fnode H s' s'.root).slice 0 32 ++ [] := by
    cases hbuilt.laid.content.formed s'.root hbuilt.root with
    | common size type =>
      rw [List.append_nil]
      simp only [Builder.nodeBytes, hbuilt.dir, size]
    | string size type => exact absurd (type.symm.trans hbuilt.dir) (by decide)
    | block size type => exact absurd (type.symm.trans hbuilt.dir) (by decide)
  have hnode := hin.fnode hbuilt.root hbytes
  obtain ⟨-, -, hcommon⟩ := common_of_slice (.inr (.inl hbuilt.dir)) hnode
  refine ⟨hpage, ?_, ?_, ?_⟩
  · rw [hroot]
    exact hin.getptr_inner hbuilt.root
  · rw [hroot, nodeType_of_slice hnode (by decide), hbuilt.dir]
  · rw [hroot, hcommon (hin.getptr_lt hdata)]
    exact hstored

/-- The same for the image itself. -/
theorem image_ready (H : Host) (rperm : Nat) (rowner : Option CStr) (fsd : Fsd) (s : Image)
    (hshort : Builder.Short (rowner.toFinset ∪ fsd.strings)) (hread : fsd.Readable H)
    (hend : (3 + fsd.blocks H) * 0x1000 ≤ 2 ^ 63)
    (hroom : 32 + fsd.room + Builder.need (rowner.toFinset ∪ fsd.strings) ∅ ≤
      Builder.BlockSize.default.room) :
    ∃ s' g, Settles (fun k => Builder.parseFsd H k 0x1000 1 rperm rowner fsd s) s' ∧
      Settles (fun k => Builder.writeFs H s' k .new) g ∧
      ∀ M, Loaded M g.bytes → Ready H M g.bytes fsd := by
  obtain ⟨s', g, hparse, hwrite, -, hready⟩ := image_kept H rperm rowner fsd s hshort hread hend hroom
  exact ⟨s', g, hparse, hwrite, fun M => hready g.bytes M fun _ _ _ => rfl⟩

end Frosk.Mount
