import Mathlib.Tactic
import Frosk.Builder.Blocks
import Frosk.Builder.Writing
import Frosk.Fs.Reading

/-!
# The image builder: where the nodes are

`seek_node` counts the entries of a block in steps of `0x10` bytes and `write_fs` puts the
headers in blocks 1 and 2, whatever the block size and the start block are. The kernel
counts in steps of the size of an entry, from the block with the header.

* `positions_agree_iff` — for the nodes of every run of requests that fit in the first
  metadata block, builder and kernel agree exactly for the default options.
-/

namespace Frosk.Builder

open Lib Fs

-- ---------------------------------------------------------------------------
-- The headers
-- ---------------------------------------------------------------------------

/-- Where `write_fs` goes for the copy `bl` of the header. -/
def headerPlace (s : Image) (bl : Nat) : Nat := s.blockSize * (bl + 1) % uintSize

theorem header_length (s : Image) : (header s).length = sizeofHeader := rfl

theorem fseek_pos {loc : Nat} (h : loc < 2 ^ 63) (f : Stream) : (f.fseek loc).pos = loc := by
  rw [Stream.fseek, if_pos h]

theorem fseek_bytes (loc : Nat) (f : Stream) : (f.fseek loc).bytes = f.bytes := by
  rw [Stream.fseek]
  split <;> rfl

/-- What is written at a place is there. -/
theorem slice_fwrite {loc : Nat} (h : loc < 2 ^ 63) (l : List UInt8) (f : Stream) :
    ((f.fseek loc).fwrite l).bytes.slice loc l.length = l := by
  show ((f.fseek loc).bytes.blit (f.fseek loc).pos l).slice loc l.length = l
  rw [fseek_pos h]
  exact Memory.slice_blit_self

/-- A write changes nothing that is apart from it. -/
theorem slice_fwrite_of_disjoint {loc a n : Nat} (h : loc < 2 ^ 63) {l : List UInt8}
    (hapart : a + n ≤ loc ∨ loc + l.length ≤ a) (f : Stream) :
    ((f.fseek loc).fwrite l).bytes.slice a n = f.bytes.slice a n := by
  show ((f.fseek loc).bytes.blit (f.fseek loc).pos l).slice a n = _
  rw [fseek_pos h, fseek_bytes]
  exact Memory.slice_blit_of_disjoint hapart

/-- `write_fs` leaves the header at both of its places. -/
theorem writeFs_header {H : Host} {s : Image} {k : Nat} {f g : Stream} (h : writeFs H s k f = some g)
    (hlow : sizeofHeader ≤ s.blockSize) (hhigh : s.blockSize < 0x80000000) {bl : Nat} (hbl : bl < 2) :
    g.bytes.slice (headerPlace s bl) sizeofHeader = header s := by
  obtain ⟨f₁, -, hg⟩ := Option.bind_eq_some_iff.mp h
  obtain rfl := Option.some.inj hg
  have hsecond : s.blockSize * 2 % uintSize = s.blockSize * 2 :=
    Nat.mod_eq_of_lt (by unfold uintSize; omega)
  rw [← header_length s]
  obtain rfl | rfl : bl = 0 ∨ bl = 1 := by omega
  · have hplace : headerPlace s 0 = s.blockSize := by
      rw [headerPlace, Nat.mul_one]
      exact Nat.mod_eq_of_lt (by unfold uintSize; omega)
    have hapart : s.blockSize + (header s).length ≤ s.blockSize * 2 % uintSize := by
      rw [hsecond, header_length]
      omega
    rw [hplace, slice_fwrite_of_disjoint (by omega) (.inl hapart)]
    exact slice_fwrite (by omega) _ _
  · exact slice_fwrite (by omega) _ _

-- ---------------------------------------------------------------------------
-- The nodes
-- ---------------------------------------------------------------------------

/-- A copy of a node is where `seek_node` goes. -/
theorem writeCopy_bytes (H : Host) (s : Image) (n : Ptr) (bl : Nat) (f : Stream)
    (h : nodePlace s n bl < 2 ^ 63) :
    (writeCopy H s n bl f).bytes.slice (nodePlace s n bl) (nodeBytes H s n).length =
      nodeBytes H s n :=
  slice_fwrite h _ _

/-- Builder and kernel agree on the positions in the first metadata block: each copy of a
node is in its copy of the block as far as `resolve_node` goes from the header, and each
copy of the header is in its copy of the block. -/
structure Agrees (D : Fs.Env) (K : Fs.State) (s : Image) : Prop where
  nodes  : ∀ n ∈ s.nodes, ∀ bl < 2, ∃ off, resolveNode D (getptr s n) K = some (K, rfsmbLoc + off) ∧
    nodePlace s n bl = ((s.metaAt s.firstMeta).lba + bl) * s.blockSize + off
  header : ∀ bl < 2, headerPlace s bl = ((s.metaAt s.firstMeta).lba + bl) * s.blockSize

section Nodes

variable {E : Env} {D : Fs.Env} {K : Fs.State} {b : BlockSize} {s : Image} {m n : Ptr}
  {ns : List Ptr} {f : Option Ptr} {rem bl : Nat}

/-- Every node has an entry of its own behind the header. -/
theorem Bump.ptr_bounds (h : Bump b s.toState m ns f rem) (hn : n ∈ s.nodes) :
    0 < (s.node n).ptr ∧ (s.node n).ptr < 0x100 := by
  have hlt : (s.node n).ptr < 0x100 := by
    rcases List.mem_append.mp ((h.mem_iff n).mpr hn) with hgiven | hfree
    · exact h.low n hgiven
    · obtain ⟨-, -, -, -, hpos, hptr⟩ := h.rest n (Option.mem_toList.mp hfree)
      exact b.ptr_lt hptr hpos
  refine ⟨Nat.pos_of_ne_zero fun hzero => ?_, hlt⟩
  have hplace : s.toState.place n = 0 := by
    rw [State.place, hzero, Nat.zero_div, Nat.zero_mod, Nat.zero_mul]
  have hbehind := tiles_behind h.block.tiles ((h.mem_iff n).mpr hn)
  have hbegin : s.toState.behindHeader m = align sizeofHeader b.entry := by
    rw [State.behindHeader, if_pos h.shift, State.hdrSize, h.entry_eq]
  have hpos := align_pos sizeofHeader b.entry_pos
  omega

/-- Where a node of the first metadata block is written. -/
theorem Bump.nodePlace_eq (h : Bump b s.toState m ns f rem) (hn : n ∈ s.nodes)
    (hlba : (s.metaAt m).lba < 0x80000000) (hbl : bl < 2) :
    nodePlace s n bl = ((s.metaAt m).lba + bl) * b.val + (s.node n).ptr * 0x10 := by
  obtain ⟨-, hlt⟩ := h.ptr_bounds hn
  have hmul : ((s.metaAt m).lba + bl) * b.val ≤ 0x80000000 * 0x80000000 :=
    Nat.mul_le_mul (by omega) b.int.le
  rw [nodePlace, Image.index, (h.ours n hn).1, h.shift, h.size, pow_zero, Nat.div_one,
    Nat.mod_eq_of_lt hlt]
  exact Nat.mod_eq_of_lt (by unfold wordSize; omega)

/-- Where the kernel looks for it. -/
theorem Bump.resolves (h : Bump b s.toState m ns f rem) (hn : n ∈ s.nodes)
    (hsize : K.nodeSize = b.entry) :
    resolveNode D (getptr s n) K = some (K, rfsmbLoc + (s.node n).ptr * b.entry) := by
  obtain ⟨hpos, hlt⟩ := h.ptr_bounds hn
  have hmul : (s.node n).ptr * b.entry ≤ 0x100 * b.entry := Nat.mul_le_mul_right _ hlt.le
  have hval := b.val_eq
  have hint := b.int
  rw [getptr, if_neg (h.ours n hn).2, resolveNode_root D K hpos.ne' hlt, hsize]
  exact congrArg (fun a => some (K, a)) (Nat.mod_eq_of_lt (by unfold rfsmbLoc wordSize; omega))

/-- The kernel finds the nodes where they were written exactly if a block is one page and the image
begins at block 1. -/
theorem agrees_iff_of_bump (h : Bump b s.toState m ns f rem) (hfirst : s.firstMeta = m)
    (hlba : (s.metaAt m).lba < 0x80000000) (hsize : K.nodeSize = b.entry) :
    Agrees D K s ↔ b.val = 0x1000 ∧ (s.metaAt m).lba = 1 := by
  have hval := b.val_eq
  have hint := b.int
  have hplace : ∀ bl < 2, headerPlace s bl = b.val * (bl + 1) := by
    intro bl hbl
    rw [headerPlace, h.size]
    have hmul : b.val * (bl + 1) ≤ b.val * 2 := Nat.mul_le_mul_left _ (by omega)
    exact Nat.mod_eq_of_lt (by unfold uintSize; omega)
  constructor
  · rintro ⟨hnodes, hheader⟩
    -- the block is not empty
    obtain ⟨n, hn⟩ : ∃ n, n ∈ s.nodes := by
      cases hlist : ns ++ f.toList with
      | cons n l => exact ⟨n, (h.mem_iff n).mp (hlist ▸ List.mem_cons_self)⟩
      | nil =>
        have htiles := h.block.tiles
        rw [hlist, Tiles, State.behindHeader, if_pos h.shift, State.hdrSize, h.entry_eq, h.size] at htiles
        have hpos := b.entry_pos
        have hle : 32 - 32 % b.entry + b.entry ≤ 32 + b.entry :=
          Nat.add_le_add_right (Nat.sub_le ..) _
        have halign : align sizeofHeader b.entry = 32 - 32 % b.entry + b.entry := rfl
        omega
    obtain ⟨off, hresolve, hoff⟩ := hnodes n hn 0 (by decide)
    have hsame := (Prod.mk.inj (Option.some.inj (hresolve.symm.trans (h.resolves hn hsize)))).2
    rw [h.nodePlace_eq hn hlba (by decide), hfirst, h.size] at hoff
    have hunit : (s.node n).ptr * 0x10 = (s.node n).ptr * b.entry := by omega
    have hentry := Nat.eq_of_mul_eq_mul_left (h.ptr_bounds hn).1 hunit
    have hblock := hheader 0 (by decide)
    rw [hplace 0 (by decide), hfirst, h.size, Nat.zero_add, Nat.mul_one, Nat.add_zero] at hblock
    refine ⟨by omega, ?_⟩
    exact Nat.eq_of_mul_eq_mul_right b.pos (hblock.symm.trans (Nat.one_mul _).symm)
  · rintro ⟨hdefault, hone⟩
    have hentry : b.entry = 0x10 := by
      rw [BlockSize.entry, hdefault]
    constructor
    · intro n hn bl hbl
      refine ⟨_, h.resolves hn hsize, ?_⟩
      rw [h.nodePlace_eq hn hlba hbl, hfirst, h.size, hentry]
    · intro bl hbl
      rw [hplace bl hbl, hfirst, h.size, hone, Nat.mul_comm, Nat.add_comm]

/-- Requests that fit stay in the first block, which stays where it is. -/
theorem trace_bump {s s' : State} {rs : List (Request b)} (h : Bump b s m ns f rem)
    (hgiven : ∀ n ∈ ns, (s.node n).type ≠ .FREE)
    (hrun : Trace (fun s r s' => ∃ n, Step E s r s' n) s rs s')
    (hfits : (rs.map Request.aligned).sum ≤ rem) :
    ∃ ns' f' rem', Bump b s' m ns' f' rem' ∧ (s'.metaAt m).lba = (s.metaAt m).lba := by
  induction hrun generalizing ns f rem with
  | nil s => exact ⟨ns, f, rem, h, rfl⟩
  | @cons s r s₁ rs s' hstep hrest ih =>
    rw [List.map_cons, List.sum_cons] at hfits
    obtain ⟨n, k, hk⟩ := hstep
    obtain ⟨s₂, n₂, f₂, ⟨k₂, hk₂⟩, hbump, hgiven', hlba⟩ :=
      request_fits (E := E) h hgiven r (by omega)
    obtain ⟨rfl, rfl⟩ := Prod.mk.inj (request_fueled.unique hk hk₂)
    obtain ⟨ns', f', rem', hbump', hlba'⟩ := ih hbump hgiven' (by omega)
    exact ⟨ns', f', rem', hbump', hlba'.trans hlba⟩

end Nodes

/-- **Positions**: whatever nodes are in the first metadata block, builder and kernel agree
on where they and the header are exactly for the default block size and start block. -/
theorem positions_agree_iff (E : Env) (D : Fs.Env) (b : BlockSize) (start : Nat)
    (hint : start < 0x80000000) (node : Ptr → Node) (metaAt : Ptr → Meta) (rs : List (Request b))
    (hfits : (rs.map Request.aligned).sum ≤ b.room) (s : Image)
    (hrun : Trace (fun s r s' => ∃ n, Step E s r s' n) (State.start E b start node metaAt) rs s.toState)
    (hfirst : ∃ s₀, newMeta E NULL (State.empty b start node metaAt) = some (s₀, s.firstMeta))
    (K : Fs.State) (hpage : headerPageSize K.mem rfsmbLoc = b.val)
    (hset : K.nodeSize = headerPageSize K.mem rfsmbLoc / 0x100) :
    Agrees D K s ↔ b.val = 0x1000 ∧ start = 1 := by
  obtain ⟨m, x, hmade, hbump, hlba, -⟩ := start_bump E b start node metaAt
  obtain ⟨s₀, hs₀⟩ := hfirst
  have hm : s.firstMeta = m := (Prod.mk.inj (Option.some.inj (hs₀.symm.trans hmade))).2
  obtain ⟨ns', f', rem', hbump', hkept⟩ := trace_bump hbump nofun hrun hfits
  have hsize : K.nodeSize = b.entry := by
    rw [hset, hpage, BlockSize.entry]
  have hfinal : (s.metaAt m).lba = start := hkept.trans hlba
  have hiff := agrees_iff_of_bump (D := D) hbump' hm (hfinal.symm ▸ hint) hsize
  rwa [hfinal] at hiff

/-- An image of which only the allocator was used. -/
def State.image (s : State) (m : Ptr) : Image where
  toState := s
  common _ := ⟨0, NULL, NULL, NULL, NULL⟩
  string _ := ⟨0, NULL, NULL, NULL, ⟨[], CStr.clean_nil⟩⟩
  block _ := ⟨none, NULL, 0, 0⟩
  firstMeta := m
  root := NULL
  freeData := NULL
  strtbl := NULL

/-- A kernel that has found blocks of `b` bytes. -/
def mounted (b : BlockSize) : Fs.State :=
  { Fs.State.single with mem := Memory.put (fun _ => 0) 4 0x1008 b.val, nodeSize := b.entry }

theorem mounted_page (b : BlockSize) : headerPageSize (mounted b).mem rfsmbLoc = b.val :=
  Memory.get_put_self (b.int.trans (by decide))

/-- The first block after one request, for the default options. -/
theorem positions_agree_default :
    ∃ s, Trace (fun s r s' => ∃ n, Step ⟨.above⟩ s r s' n) State.fresh [leaves80] s ∧
      Agrees .plain (mounted .default) (s.image 2) := by
  have hruns : (request ⟨.above⟩ 3 leaves80 State.fresh).isSome = true := by decide +kernel
  obtain ⟨⟨s, n⟩, hrequest⟩ := Option.isSome_iff_exists.mp hruns
  have htrace : Trace (fun s r s' => ∃ n, Step ⟨.above⟩ s r s' n) State.fresh [leaves80] s :=
    .cons ⟨n, 3, hrequest⟩ (.nil s)
  refine ⟨s, htrace, ?_⟩
  exact (positions_agree_iff ⟨.above⟩ .plain .default 1 (by decide) _ _ [leaves80] (by decide)
    (s.image 2) htrace ⟨_, rfl⟩ (mounted .default) (mounted_page _) (by rw [mounted_page]; rfl)).mpr
    ⟨rfl, rfl⟩

/-- Blocks of 8192 bytes. -/
def BlockSize.twice : BlockSize := ⟨0x2000, rfl, by decide, by decide⟩

/-- With blocks of 8192 bytes the kernel looks for the first node at 64 bytes in the block,
and the builder writes it at 32. -/
theorem positions_differ :
    ∃ s m, newMeta ⟨.above⟩ NULL (State.empty .twice 1 (fun _ => ⟨.FREE, 0, 0, NULL, NULL, NULL, NULL,
        NULL⟩) (fun _ => ⟨0, 0, 0, NULL⟩)) = some (s, m) ∧
      ¬ Agrees .plain (mounted .twice) (s.image m) := by
  obtain ⟨m, x, hmade, hbump, hlba, -⟩ := start_bump ⟨.above⟩ .twice 1
    (fun _ => ⟨.FREE, 0, 0, NULL, NULL, NULL, NULL, NULL⟩) (fun _ => ⟨0, 0, 0, NULL⟩)
  refine ⟨_, m, hmade, ?_⟩
  intro hagrees
  have hiff := (agrees_iff_of_bump (s := State.image _ m) hbump rfl (hlba.trans_lt (by decide)) rfl).mp
    hagrees
  exact absurd hiff.1 (by decide)

end Frosk.Builder
