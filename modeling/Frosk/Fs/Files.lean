import Mathlib.Tactic
import Frosk.Fs.Reading

/-!
# The kernel's file system: files as the disk has them

Two results about `fs_read` on files of the disk.

* `history_free_iff` — a file with one block: over every run of `fs_size` and `fs_read`,
  the answers are those of the file and do not depend on the calls before, exactly if no
  read begins beyond the end of the file while the size is not known yet.
* `reads_slice_iff` — a file with any number of blocks, whose size is known: the bytes of
  the range are read, from inside of the blocks, exactly if the range begins at the start
  of the file or lies in the first block.
-/

namespace Frosk.Fs

open Lib

-- ---------------------------------------------------------------------------
-- One block
-- ---------------------------------------------------------------------------

/-- The calls on a file. -/
inductive FileOp where
  | size
  | read (addr size : UInt64)

inductive FileAnswer where
  | size (n : Nat)
  | read (count : Nat) (bytes : List UInt8)
deriving DecidableEq

def FileOp.call (E : Env) (e : Ptr) (s : State) (op : FileOp) (k : Nat) :
    Option (State × FileAnswer) :=
  match op with
  | .size => (fsSize E k e s).map fun r => (r.1, .size r.2)
  | .read addr n => (fsRead E k addr.toNat n.toNat e s).map fun r => (r.1, .read r.2.1 r.2.2)

def FileOp.Step (E : Env) (e : Ptr) (s : State) (op : FileOp) (s' : State) (a : FileAnswer) : Prop :=
  ∃ k, op.call E e s k = some (s', a)

/-- The answer of a file of `size` bytes at `start` on the disk. -/
def FileOp.answer (E : Env) (start size : Nat) : FileOp → FileAnswer
  | .size => .size size
  | .read addr n =>
    let count := min n.toNat (size - addr.toNat)
    .read count (E.disk.slice (start + addr.toNat) count)

/-- The file has one block, whose metadata may be loaded when it is first used. -/
structure OneBlock (E : Env) (e : Ptr) (start size : Nat) (s : State) : Prop where
  onDisk : OnDisk s e
  cached : (s.ent e).size = fsSizeUnknown ∨ (s.ent e).size = size
  placed : start + size ≤ wordSize
  block  : ∃ s₁ n, resolveNode E (s.dataPtr e) s = some (s₁, n) ∧ s₁.dataPtr e = s.dataPtr e ∧
    Chain E s₁ (s₁.dataPtr e) [n] ∧ blockStart s₁ n = start ∧ blockSize s₁.mem n = size

/-- The size is known, or the read does not begin beyond the end of the file, or nothing
is asked for, or `addr` is the value that stands for an unknown size. -/
def FileOp.Sound (e : Ptr) (size : Nat) (s : State) : FileOp → Prop
  | .size => True
  | .read addr n => (s.ent e).size ≠ fsSizeUnknown ∨ addr.toNat ≤ size ∨ n = 0 ∨
      addr.toNat = fsSizeUnknown

instance (e : Ptr) (size : Nat) (s : State) (op : FileOp) : Decidable (op.Sound e size s) := by
  cases op <;> unfold FileOp.Sound <;> infer_instance

section OneBlock

variable {E : Env} {e : Ptr} {start size : Nat} {s s' : State}

/-- The size of a block is a word. -/
theorem OneBlock.size_lt (h : OneBlock E e start size s) : size < wordSize := by
  obtain ⟨s₁, n, -, -, -, -, rfl⟩ := h.block
  exact Memory.get_lt

/-- More rounds do not change what a call returns. -/
theorem fileOp_fueled (E : Env) (e : Ptr) : Fueled fun s op k => FileOp.call E e s op k := by
  intro s op n m r hle h
  cases op with
  | size =>
    obtain ⟨x, hx, hr⟩ := Option.map_eq_some_iff.mp h
    exact Option.map_eq_some_iff.mpr ⟨x, fsSize_below E hle e s x hx, hr⟩
  | read addr n' =>
    obtain ⟨x, hx, hr⟩ := Option.map_eq_some_iff.mp h
    exact Option.map_eq_some_iff.mpr ⟨x, fsRead_below E hle _ _ e s x hx, hr⟩

/-- What a call that found the block leaves. -/
theorem OneBlock.after (h : OneBlock E e start size s) {s₁ : State} {n : Nat}
    (hres : resolveNode E (s.dataPtr e) s = some (s₁, n))
    (hchain : Chain E s₁ (s₁.dataPtr e) [n]) (hstart : blockStart s₁ n = start)
    (hsize : blockSize s₁.mem n = size) : OneBlock E e start size (s₁.setSize e size) := by
  have hent : (s₁.setSize e size).ent e = { s.ent e with size := size } := by
    rw [State.setSize, modify_ent_self, resolveNode_ent hres]
  have hptr : (s₁.setSize e size).dataPtr e = s₁.dataPtr e := by
    unfold State.dataPtr
    rw [hent, resolveNode_ent hres]
    rfl
  refine ⟨⟨h.onDisk.ne_null, ?_, ?_, ?_, ?_, ?_⟩, .inr ?_, h.placed, s₁.setSize e size, n, ?_, rfl, ?_,
    hstart, hsize⟩
  · rw [hent]
    exact h.onDisk.type
  · rw [hent]
    exact h.onDisk.node
  · rw [hent]
    exact h.onDisk.virt
  · rw [hent]
    exact h.onDisk.present
  · rw [hent]
    exact h.onDisk.unhooked
  · rw [hent]
  · rw [hptr]
    exact resolveNode_setSize hchain.1 size
  · rw [hptr]
    exact chain_setSize hchain size

/-- `fs_size` answers the size. -/
theorem OneBlock.fsSize (h : OneBlock E e start size s) :
    ∃ s', Settles (fun k => fsSize E k e s) (s', size) ∧ OneBlock E e start size s' := by
  by_cases hknown : (s.ent e).size = fsSizeUnknown
  · obtain ⟨s₁, n, hres, hdata, hchain, hstart, hsize⟩ := h.block
    have hsum : total s₁ [n] % wordSize = size := by
      rw [total, List.map_singleton, List.sum_singleton, hsize, Nat.mod_eq_of_lt h.size_lt]
    have hfirst : resolveNode E (s.dataPtr e) s = some (s₁, [n].headD NULL) := hres
    have hset := fsSize_unknown h.onDisk hknown hfirst hchain
    rw [hsum] at hset
    exact ⟨_, hset, h.after hres hchain hstart hsize⟩
  · have hsize : (s.ent e).size = size := h.cached.resolve_left hknown
    refine ⟨s, settles_of_eq fun k => ?_, h⟩
    rw [fsSize_known h.onDisk hknown, hsize]

/-- The first block of the file, as the call that comes after `fs_size` finds it. -/
theorem OneBlock.loop (h : OneBlock E e start size s) : ∃ s₁ n, n ≠ NULL ∧
    resolveNode E (s.dataPtr e) s = some (s₁, n) ∧ nodeType s₁.mem n = some .BLOCK ∧
    blockStart s₁ n = start ∧ blockSize s₁.mem n = size ∧
    resolveNode E (blockNext s₁.mem n) s₁ = some (s₁, NULL) ∧ OneBlock E e start size s₁ := by
  obtain ⟨s₁, n, hres, hdata, hchain, hstart, hsize⟩ := h.block
  obtain ⟨hself, hnull, htype, hnext⟩ := hchain
  have hend := chain_resolve hnext
  refine ⟨s₁, n, hnull, hres, htype, hstart, hsize, hend, ?_⟩
  have hent := resolveNode_ent hres
  exact ⟨⟨h.onDisk.ne_null, hent ▸ h.onDisk.type, hent ▸ h.onDisk.node, hent ▸ h.onDisk.virt,
    hent ▸ h.onDisk.present, hent ▸ h.onDisk.unhooked⟩, hent ▸ h.cached, h.placed, s₁, n, hself, rfl,
    ⟨hself, hnull, htype, hnext⟩, hstart, hsize⟩

/-- One round reads what is left of the range. -/
theorem oneBlock_exits {s₁ : State} {n addr : Nat} (rem : Nat) (hn : n ≠ NULL)
    (htype : nodeType s₁.mem n = some .BLOCK) (hrem : rem ≠ 0) (hlt : addr < blockSize s₁.mem n)
    (hplaced : blockStart s₁ n + addr < wordSize)
    (hnext : resolveNode E (blockNext s₁.mem n) s₁ = some (s₁, NULL)) :
    Exits (readBody E) ⟨s₁, addr, rem, n, []⟩ (some ⟨s₁, 0, rem - min rem (blockSize s₁.mem n), NULL,
      E.disk.slice (blockStart s₁ n + addr) (min rem (blockSize s₁.mem n))⟩) := by
  refine exits_of_inl (readRound_read hn htype hrem [] hlt hplaced hnext) (exits_of_inr ?_)
  rw [readBody, if_pos (.inr rfl), List.nil_append]

/-- A read that begins in the file. -/
theorem OneBlock.read_inside (h : OneBlock E e start size s) {addr n : Nat} (hlt : addr < size)
    (hbelow : addr < (s.ent e).size) : ∃ s', Settles (fun k => fsRead E k addr n e s)
      (s', min n (size - addr), E.disk.slice (start + addr) (min n (size - addr))) ∧
      OneBlock E e start size s' := by
  obtain ⟨s₂, hset, h₂⟩ := h.fsSize
  have hsub : wsub size addr = size - addr := wsub_eq hlt.le h.size_lt
  by_cases hzero : min n (size - addr) = 0
  · refine ⟨s₂, ?_, h₂⟩
    rw [hzero]
    exact fsRead_nothing h.onDisk hbelow hset (hsub.symm ▸ hzero)
  · obtain ⟨s₁, b, hnull, hres, htype, hstart, hsize, hnext, h₁⟩ := h₂.loop
    have hplaced := h.placed
    have hexits := oneBlock_exits (min n (size - addr)) hnull htype hzero (hsize.symm ▸ hlt)
      (by omega) hnext
    have hmin : min (min n (size - addr)) (blockSize s₁.mem b) = min n (size - addr) := by omega
    rw [hmin, Nat.sub_self, hstart] at hexits
    refine ⟨s₁, ?_, h₁⟩
    rw [fsRead_settles_iff h.onDisk hbelow hset h₂.onDisk hres (hsub.symm ▸ hzero), hsub]
    exact ⟨_, hexits, by rw [Nat.sub_zero]⟩

/-- A read that begins beyond the end, while the size is not known: it returns bytes, or
does not return. -/
theorem OneBlock.read_beyond (h : OneBlock E e start size s) {addr n : Nat} (hlt : size < addr)
    (hn : n ≠ 0) (hbelow : addr < (s.ent e).size) (haddr : addr < wordSize) {k count : Nat}
    {l : List UInt8} (hread : fsRead E k addr n e s = some (s', count, l)) : count ≠ 0 := by
  obtain ⟨s₂, hset, h₂⟩ := h.fsSize
  obtain ⟨s₁, b, hnull, hres, htype, hstart, hsize, hnext, -⟩ := h₂.loop
  have hrem : min n (wsub size addr) ≠ 0 := by
    have hwrap : wsub size addr ≠ 0 := by
      unfold wsub wordSize at *
      omega
    omega
  have hsettles : Settles (fun k => fsRead E k addr n e s) (s', count, l) :=
    ⟨k, fun k' hle => fsRead_below E hle addr n e s _ hread⟩
  rw [fsRead_settles_iff h.onDisk hbelow hset h₂.onDisk hres hrem] at hsettles
  obtain ⟨r, hexits, hresult⟩ := hsettles
  rcases Nat.eq_zero_or_pos (blockSize s₁.mem b) with hzero | hpos
  · exact absurd hexits (never_leaves hnull htype hrem hzero)
  · have hmod : addr % blockSize s₁.mem b < blockSize s₁.mem b := Nat.mod_lt _ hpos
    have hplaced := h.placed
    rw [skips_iff hnull htype hrem hpos] at hexits
    have hend := exits_unique hexits (oneBlock_exits _ hnull htype hrem hmod (by omega) hnext)
    obtain rfl := Option.some.inj hend
    have hcount : min n (wsub size addr) -
        (min n (wsub size addr) - min (min n (wsub size addr)) (blockSize s₁.mem b)) = count :=
      congrArg (fun x => x.2.1) hresult
    omega

/-- A read of a file whose size is known, or that does not begin beyond its end. -/
theorem OneBlock.read_settles (h : OneBlock E e start size s) {addr n : Nat}
    (hsound : (s.ent e).size ≠ fsSizeUnknown ∨ addr ≤ size ∨ n = 0 ∨ addr = fsSizeUnknown) :
    ∃ s', Settles (fun k => fsRead E k addr n e s)
      (s', min n (size - addr), E.disk.slice (start + addr) (min n (size - addr))) ∧
      OneBlock E e start size s' := by
  have hsize := h.size_lt
  by_cases hle : (s.ent e).size ≤ addr
  · have hnone : min n (size - addr) = 0 := by
      rcases h.cached with hc | hc
      · rw [hc] at hle
        unfold fsSizeUnknown at hle
        omega
      · omega
    refine ⟨s, settles_of_eq fun k => ?_, h⟩
    rw [fsRead, if_neg (not_not_intro h.onDisk.type), if_pos hle, hnone]
    rfl
  · rcases Nat.lt_or_ge addr size with hlt | hge
    · exact h.read_inside hlt (Nat.lt_of_not_le hle)
    · -- the size is not known, or it would be at most `addr`
      have hunknown : (s.ent e).size = fsSizeUnknown := by
        rcases h.cached with hc | hc
        · exact hc
        · omega
      have hempty : min n (wsub size addr) = 0 := by
        rcases hsound with hk | hk | hk | hk
        · exact absurd hunknown hk
        · have heq : addr = size := by omega
          rw [heq, wsub_eq le_rfl hsize, Nat.sub_self, Nat.min_zero]
        · rw [hk]
          exact Nat.zero_min _
        · omega
      have hnone : min n (size - addr) = 0 := by omega
      obtain ⟨s₂, hset, h₂⟩ := h.fsSize
      rw [hnone]
      exact ⟨s₂, fsRead_nothing h.onDisk (Nat.lt_of_not_le hle) hset hempty, h₂⟩

end OneBlock

/-- **The answers of a file do not depend on its history**: over every run of calls on a
file of one block, each answer is that of the file, if and only if no read begins beyond
the end of the file while its size is not known. -/
theorem history_free_iff (E : Env) (e : Ptr) (start size : Nat) (s : State)
    (h : OneBlock E e start size s) (ops : List FileOp) :
    Along (FileOp.Step E e) (fun _ op _ a => a = op.answer E start size) s ops ↔
      Whenever (FileOp.Step E e) (fun s op => op.Sound e size s) s ops := by
  have hgood : ∀ s op, OneBlock E e start size s → True → op.Sound e size s →
      ∃ s' a, FileOp.Step E e s op s' a ∧ a = op.answer E start size ∧ OneBlock E e start size s' := by
    intro s op hs _ hsound
    cases op with
    | size =>
      obtain ⟨s', ⟨k, hk⟩, h'⟩ := hs.fsSize
      exact ⟨s', _, ⟨k, congrArg (Option.map _) (hk k le_rfl)⟩, rfl, h'⟩
    | read addr n =>
      have hsound' : (s.ent e).size ≠ fsSizeUnknown ∨ addr.toNat ≤ size ∨ n.toNat = 0 ∨
          addr.toNat = fsSizeUnknown :=
        hsound.imp_right (Or.imp_right (Or.imp_left fun hn => congrArg UInt64.toNat hn))
      have hstep := hs.read_settles hsound'
      obtain ⟨s', ⟨k, hk⟩, h'⟩ := hstep
      exact ⟨s', _, ⟨k, congrArg (Option.map _) (hk k le_rfl)⟩, rfl, h'⟩
  have hbad : ∀ s op s' a, OneBlock E e start size s → True → ¬ op.Sound e size s →
      FileOp.Step E e s op s' a → a ≠ op.answer E start size := by
    rintro s op s' a hs - hsound ⟨k, hk⟩ rfl
    cases op with
    | size => exact hsound trivial
    | read addr n =>
      simp only [FileOp.Sound, not_or, not_not, not_le] at hsound
      obtain ⟨hunknown, hlt, hn, haddr⟩ := hsound
      obtain ⟨⟨s₁, count, l⟩, hread, hresult⟩ := Option.map_eq_some_iff.mp hk
      have hword : addr.toNat < wordSize := addr.toNat_lt
      have hbelow : addr.toNat < (s.ent e).size := by
        rw [hunknown]
        unfold fsSizeUnknown at *
        omega
      have hcount := hs.read_beyond hlt (fun hz => hn (UInt64.toNat_inj.mp hz)) hbelow hword hread
      have heq : count = min n.toNat (size - addr.toNat) :=
        (FileAnswer.read.inj (congrArg Prod.snd hresult)).1
      omega
  have hdet : ∀ s op s₁ a₁ s₂ a₂, FileOp.Step E e s op s₁ a₁ → FileOp.Step E e s op s₂ a₂ →
      s₁ = s₂ ∧ a₁ = a₂ := by
    rintro s op s₁ a₁ s₂ a₂ ⟨n, hn⟩ ⟨m, hm⟩
    exact Prod.mk.inj ((fileOp_fueled E e).unique hn hm)
  exact along_iff_whenever hgood hbad hdet h (whenever_of_forall fun _ _ => trivial)

/-- A file of four bytes in block 3 of a disk, which `assure_dir` has just loaded. -/
def State.fourOnDisk : State :=
  { State.single.modify 2 fun v => { v with type := .FILE, node := 0x1030, size := fsSizeUnknown } with
    mem := (((Memory.put (fun _ => 0) 4 0x1008 0x1000).put 4 0x1040 5).put 1 0x1050 5).put 8 0x1058 3
      |>.put 8 0x1060 4 }

theorem fourOnDisk_oneBlock : OneBlock .plain 2 0x3000 4 State.fourOnDisk := by
  have hres := resolveNode_root .plain State.fourOnDisk (p := 5) (by decide) (by decide)
  have hptr : State.fourOnDisk.dataPtr 2 = 5 := by decide +kernel
  refine ⟨⟨by decide, rfl, by decide, rfl, rfl, rfl⟩, .inl rfl, by decide, State.fourOnDisk, 0x1050, ?_,
    rfl, ⟨?_, by decide, by decide +kernel, ?_⟩, by decide +kernel, by decide +kernel⟩
  · rw [hptr]
    exact hres
  · rw [hptr]
    exact hres
  · show blockNext State.fourOnDisk.mem 0x1050 = 0
    decide +kernel

/-- A read at the end of the file, its size, and a read beyond the end. -/
theorem history_free_four :
    Along (FileOp.Step .plain 2) (fun _ op _ a => a = op.answer .plain 0x3000 4) State.fourOnDisk
      [.read 4 1, .size, .read 6 1] :=
  (history_free_iff .plain 2 0x3000 4 State.fourOnDisk fourOnDisk_oneBlock _).mpr
    (whenever_of_checkRun ((fileOp_fueled .plain 2).computes 3) (by decide +kernel))

/-- The first read of the file begins beyond its end, and returns a byte. -/
theorem first_read_beyond :
    ¬ Along (FileOp.Step .plain 2) (fun _ op _ a => a = op.answer .plain 0x3000 4) State.fourOnDisk
      [.read 6 1] := by
  rintro ⟨s', a, ⟨k, hk⟩, rfl, -⟩
  obtain ⟨⟨s₁, count, l⟩, hread, hresult⟩ := Option.map_eq_some_iff.mp hk
  have hcount := fourOnDisk_oneBlock.read_beyond (by decide) (by decide) (by decide) (by decide) hread
  have hzero : count = 0 := (FileAnswer.read.inj (congrArg Prod.snd hresult)).1
  exact hcount hzero

-- ---------------------------------------------------------------------------
-- Many blocks
-- ---------------------------------------------------------------------------

/-- The same, with another disk. -/
def Env.withDisk (E : Env) (d : Memory) : Env := { E with disk := d }

/-- A file with the blocks `ns`, whose size was computed: the blocks are not empty and their
nodes are in memory. -/
structure BlockFile (E : Env) (s : State) (e : Ptr) (ns : List Nat) : Prop where
  onDisk : OnDisk s e
  chain  : ∀ d, Chain (E.withDisk d) s (s.dataPtr e) ns
  pos    : ∀ n ∈ ns, 0 < blockSize s.mem n
  placed : ∀ n ∈ ns, blockStart s n + blockSize s.mem n ≤ wordSize
  word   : total s ns < wordSize
  size   : (s.ent e).size = total s ns

/-- No two of the blocks share a byte of the disk. -/
def Apart (s : State) (ns : List Nat) : Prop :=
  ns.Pairwise fun a b => blockStart s a + blockSize s.mem a ≤ blockStart s b ∨
    blockStart s b + blockSize s.mem b ≤ blockStart s a

/-- Whatever is on the disk, the call returns the bytes of the range that are in the file,
and none of its rounds reads outside of the block it is at. -/
def ReadsSlice (E : Env) (s : State) (e : Ptr) (ns : List Nat) (addr size : Nat) : Prop :=
  ∀ d : Memory,
    (∃ k s', fsRead (E.withDisk d) k addr size e s = some (s', min size (total s ns - addr),
      ((content (E.withDisk d) s ns).drop addr).take (min size (total s ns - addr)))) ∧
    ∀ r, Rounds (readBody (E.withDisk d)) ⟨s, addr, min size (total s ns - addr), ns.headD NULL, []⟩ r →
      StaysInBlock r

section Many

variable {E : Env} {s : State} {e : Ptr} {n addr size : Nat} {ns : List Nat}

/-- The places of the bytes of a file on the disk. -/
def places (s : State) (ns : List Nat) : List Nat :=
  ns.flatMap fun n => (List.range (blockSize s.mem n)).map (blockStart s n + ·)

/-- The content of a chain, byte by byte from its places on the disk. -/
theorem content_eq_places (E : Env) (s : State) (ns : List Nat) :
    content E s ns = (places s ns).map E.disk := by
  rw [content, places, List.map_flatMap]
  refine congrArg (fun f => List.flatMap f ns) (funext fun n => ?_)
  rw [blockBytes, Memory.slice, List.map_map]
  rfl

/-- No byte of the disk is in two of its blocks. -/
theorem Apart.places_nodup (h : Apart s ns) : (places s ns).Nodup := by
  refine List.nodup_flatMap.mpr ⟨?_, ?_⟩
  · intro n _
    exact List.nodup_range.map fun a b hab => Nat.add_left_cancel hab
  · refine h.imp fun {a b} hab => ?_
    rw [Function.onFun, List.disjoint_left]
    intro x hx hx'
    obtain ⟨i, hi, rfl⟩ := List.mem_map.mp hx
    obtain ⟨j, hj, heq⟩ := List.mem_map.mp hx'
    rw [List.mem_range] at hi hj
    omega

/-- The size of a chain that is loaded is known. -/
theorem BlockFile.fsSize (h : BlockFile E s e ns) (d : Memory) :
    Settles (fun k => fsSize (E.withDisk d) k e s) (s, total s ns) := by
  by_cases hknown : (s.ent e).size = fsSizeUnknown
  · have hfs := fsSize_unknown h.onDisk hknown (chain_resolve (h.chain d)) (h.chain d)
    rw [Nat.mod_eq_of_lt h.word, ← h.size, setSize_same, h.size] at hfs
    exact hfs
  · refine settles_of_eq ?_
    intro k
    rw [fsSize_known h.onDisk hknown, h.size]

/-- The call is its loop, on every disk. -/
theorem BlockFile.settles_iff (h : BlockFile E s e ns) (hlt : addr < total s ns) (hsize : size ≠ 0)
    (d : Memory) {x : State × Nat × List UInt8} :
    Settles (fun k => fsRead (E.withDisk d) k addr size e s) x ↔ ∃ r,
      Exits (readBody (E.withDisk d))
        ⟨s, addr, min size (total s ns - addr), ns.headD NULL, []⟩ (some r) ∧
        (r.fs, min size (total s ns - addr) - r.rem, r.buf) = x := by
  have hset := h.fsSize d
  have hsub : wsub (total s ns) addr = total s ns - addr := wsub_eq hlt.le h.word
  have hne : min size (wsub (total s ns) addr) ≠ 0 := by omega
  have hiff := fsRead_settles_iff (x := x) h.onDisk (h.size.symm ▸ hlt) hset h.onDisk
    (chain_resolve (h.chain d)) hne
  rw [hsub] at hiff
  exact hiff

/-- A result with some bound is the result. -/
theorem settles_of_call {d : Memory} {k : Nat} {x : State × Nat × List UInt8}
    (h : fsRead (E.withDisk d) k addr size e s = some x) :
    Settles (fun k => fsRead (E.withDisk d) k addr size e s) x :=
  ⟨k, fun _ hle => fsRead_below _ hle addr size e s _ h⟩

/-- Nothing is asked for. -/
theorem BlockFile.reads_nothing (h : BlockFile E s e ns) (hlt : addr < total s ns)
    (hsize : size = 0) : ReadsSlice E s e ns addr size := by
  intro d
  subst hsize
  rw [Nat.zero_min, List.take_zero]
  constructor
  · obtain ⟨k, hk⟩ := fsRead_nothing h.onDisk (h.size.symm ▸ hlt) (h.fsSize d)
      (Nat.zero_min (wsub (total s ns) addr))
    exact ⟨k, s, hk k le_rfl⟩
  · intro r hr
    rw [rounds_inr (readBody_done rfl) hr]
    intro a m hread
    rw [deviceRead, if_pos (.inl rfl)] at hread
    cases hread

/-- From the start of the file. -/
theorem BlockFile.reads_start (h : BlockFile E s e ns) (hpos : 0 < total s ns) (hsize : size ≠ 0) :
    ReadsSlice E s e ns 0 size := by
  intro d
  obtain ⟨r, hexits, hfs, hrem, hbuf, hstays⟩ := readLoop (h.chain d) h.pos h.placed
    (min size (total s ns - 0)) (by omega) []
  refine ⟨?_, hstays⟩
  have hsettles := (h.settles_iff hpos hsize d).mpr ⟨r, hexits, rfl⟩
  obtain ⟨k, hk⟩ := hsettles
  refine ⟨k, s, (hk k le_rfl).trans ?_⟩
  rw [hfs, hrem, hbuf, Nat.sub_zero, List.nil_append, List.drop_zero]

/-- From anywhere in the file the loop ends with nothing left to read. -/
theorem BlockFile.reads_all (h : BlockFile E s e ns) (d : Memory) {c : Nat} (hc : c ≠ 0)
    (hle : addr + c ≤ total s ns) :
    ∃ r, Exits (readBody (E.withDisk d)) ⟨s, addr, c, ns.headD NULL, []⟩ (some r) ∧ r.fs = s ∧
      r.rem = 0 ∧ r.buf.length = c := by
  cases ns with
  | nil =>
    have hempty : total s [] = 0 := rfl
    omega
  | cons n ns =>
    obtain ⟨-, hnull, htype, hrest⟩ := h.chain d
    have hpos := h.pos n List.mem_cons_self
    have hfit := h.placed n List.mem_cons_self
    have hlt := Nat.mod_lt addr hpos
    rw [total, List.map_cons, List.sum_cons, ← total] at hle
    have hround := readRound_read hnull htype hc [] hlt (by omega) (chain_resolve hrest)
    obtain ⟨r, hexits, hfs, hrem, hbuf, -⟩ := readLoop hrest
      (fun m hm => h.pos m (List.mem_cons_of_mem _ hm))
      (fun m hm => h.placed m (List.mem_cons_of_mem _ hm)) (c - min c (blockSize s.mem n)) (by omega)
      ([] ++ (E.withDisk d).disk.slice (blockStart s n + addr % blockSize s.mem n)
        (min c (blockSize s.mem n)))
    refine ⟨r, ?_, hfs, hrem, ?_⟩
    · exact (skips_iff hnull htype hc hpos addr).mpr (exits_of_inl hround hexits)
    · rw [hbuf, List.nil_append, List.length_append, Memory.slice_length, List.length_take,
        content_length]
      omega

/-- Inside of the first block. -/
theorem BlockFile.reads_first (h : BlockFile E s e (n :: ns)) (hlt : addr < total s (n :: ns))
    (hsize : size ≠ 0) (hle : addr + min size (total s (n :: ns) - addr) ≤ blockSize s.mem n) :
    ReadsSlice E s e (n :: ns) addr size := by
  intro d
  obtain ⟨-, hnull, htype, hrest⟩ := h.chain d
  have hfit := h.placed n List.mem_cons_self
  generalize hc : min size (total s (n :: ns) - addr) = c at hle
  have hne : c ≠ 0 := by omega
  have hround := readRound_read hnull htype hne [] (show addr < blockSize s.mem n by omega) (by omega)
    (chain_resolve hrest)
  have hmin : min c (blockSize s.mem n) = c := by omega
  rw [hmin, Nat.sub_self] at hround
  have hdone : readBody (E.withDisk d) ⟨s, 0, 0, ns.headD NULL,
      [] ++ (E.withDisk d).disk.slice (blockStart s n + addr) c⟩ = .inr (some _) := readBody_done rfl
  constructor
  · have hsettles := (h.settles_iff hlt hsize d).mpr
      ⟨_, hc ▸ exits_of_inl hround (exits_of_inr hdone), rfl⟩
    obtain ⟨k, hk⟩ := hsettles
    refine ⟨k, s, (hk k le_rfl).trans ?_⟩
    rw [hc, Nat.sub_zero, List.nil_append]
    refine congrArg (fun l => some (s, c, l)) ?_
    have hlength : (blockBytes (E.withDisk d) s n).length = blockSize s.mem n := Memory.slice_length
    have hcons : content (E.withDisk d) s (n :: ns) =
        blockBytes (E.withDisk d) s n ++ content (E.withDisk d) s ns := rfl
    rw [hcons, List.drop_append_of_le_length (by omega),
      List.take_append_of_le_length (by rw [List.length_drop]; omega), blockBytes, Memory.slice,
      Memory.slice, ← List.map_drop, ← List.map_take]
    have hrange : ((List.range (blockSize s.mem n)).drop addr).take c =
        (List.range c).map (addr + ·) := by
      refine List.ext_getElem? ?_
      intro i
      by_cases hi : i < c
      · rw [List.getElem?_take_of_lt hi, List.getElem?_drop, List.getElem?_range (by omega),
          List.getElem?_map, List.getElem?_range hi]
        rfl
      · rw [List.getElem?_eq_none, List.getElem?_eq_none]
        · simp only [List.length_map, List.length_range]
          omega
        · rw [List.length_take]
          omega
    rw [hrange, List.map_map]
    refine List.map_congr_left ?_
    intro i _
    rw [Function.comp_apply, Nat.add_assoc]
  · intro r hr
    rcases rounds_inl hround hr with rfl | hr
    · exact staysInBlock_of_le hnull hne (by omega) (by omega) (by omega)
    · rw [rounds_inr hdone hr]
      intro a m hread
      rw [deviceRead, if_pos (.inl rfl)] at hread
      cases hread

/-- Behind the first block the call reads a byte of the first block. -/
theorem BlockFile.reads_behind (h : BlockFile E s e (n :: ns)) (hapart : Apart s (n :: ns))
    (hlt : addr < total s (n :: ns)) (hsize : size ≠ 0) (hge : blockSize s.mem n ≤ addr) :
    ¬ ReadsSlice E s e (n :: ns) addr size := by
  intro hreads
  have hlength : (places s (n :: ns)).length = total s (n :: ns) := by
    have hlen := congrArg List.length (content_eq_places E s (n :: ns))
    rw [content_length, List.length_map] at hlen
    exact hlen.symm
  have hpos := h.pos n List.mem_cons_self
  have hmod : addr % blockSize s.mem n < blockSize s.mem n := Nat.mod_lt _ hpos
  -- the disk on which only the first byte of the range is not zero
  obtain ⟨x, hx⟩ : ∃ x, (places s (n :: ns))[addr]? = some x :=
    ⟨_, List.getElem?_eq_getElem (hlength.symm ▸ hlt)⟩
  let d : Memory := fun a => if a = x then 1 else 0
  obtain ⟨⟨k, s', hk⟩, -⟩ := hreads d
  obtain ⟨r, hexits, hresult⟩ := (h.settles_iff hlt hsize d).mp (settles_of_call hk)
  have hbuf : r.buf = ((content (E.withDisk d) s (n :: ns)).drop addr).take
      (min size (total s (n :: ns) - addr)) := congrArg (fun x => x.2.2) hresult
  have hne : min size (total s (n :: ns) - addr) ≠ 0 := by omega
  have hright : r.buf[0]? = some 1 := by
    rw [hbuf, List.getElem?_take_of_lt (Nat.pos_of_ne_zero hne), List.getElem?_drop, Nat.add_zero,
      content_eq_places, List.getElem?_map, hx]
    exact congrArg some (if_pos rfl)
  obtain ⟨-, hnull, htype, hrest⟩ := h.chain d
  have hfit := h.placed n List.mem_cons_self
  have hround := readRound_read hnull htype hne [] hmod (by omega) (chain_resolve hrest)
  rw [List.headD_cons, skips_iff hnull htype hne hpos, exits_inl_iff hround, List.nil_append] at hexits
  obtain ⟨l, hl⟩ := exits_prefix hexits
  have hsome : 0 < min (min size (total s (n :: ns) - addr)) (blockSize s.mem n) := by omega
  have hwrong : r.buf[0]? = some (d (blockStart s n + addr % blockSize s.mem n)) := by
    rw [← hl, List.getElem?_append_left (by rw [Memory.slice_length]; exact hsome),
      Memory.slice_getElem? hsome]
    rfl
  have heq : blockStart s n + addr % blockSize s.mem n = x := by
    have hd : d (blockStart s n + addr % blockSize s.mem n) = 1 :=
      Option.some.inj (hwrong.symm.trans hright)
    by_contra hxne
    have hzero : d (blockStart s n + addr % blockSize s.mem n) = 0 := if_neg hxne
    rw [hzero] at hd
    exact absurd hd (by decide)
  -- that place is also the one of an earlier byte
  have hsame : (places s (n :: ns))[addr % blockSize s.mem n]? = some x := by
    rw [places, List.flatMap_cons, List.getElem?_append_left (by simpa using hmod), List.getElem?_map,
      List.getElem?_range hmod, ← heq]
    rfl
  have hindex := (List.getElem?_inj (by rw [hlength]; omega) hapart.places_nodup).mp
    (hsame.trans hx.symm)
  omega

end Many

/-- **Reading a chain of blocks**: the call reads the range if nothing is asked for, or the
range begins at the start of the file, or it lies in the first block; and, unless two
blocks share bytes of the disk, only then. -/
theorem reads_slice_iff (E : Env) (s : State) (e : Ptr) (ns : List Nat) (h : BlockFile E s e ns)
    (addr size : Nat) (hlt : addr < total s ns) :
    (size = 0 ∨ addr = 0 ∨ addr + min size (total s ns - addr) ≤ blockSize s.mem (ns.headD NULL) →
      ReadsSlice E s e ns addr size) ∧
    (Apart s ns → ReadsSlice E s e ns addr size →
      size = 0 ∨ addr = 0 ∨
        addr + min size (total s ns - addr) ≤ blockSize s.mem (ns.headD NULL)) := by
  cases ns with
  | nil => exact absurd hlt (Nat.not_lt_zero _)
  | cons n ns =>
    rw [List.headD_cons]
    constructor
    · intro hcond
      by_cases hsize : size = 0
      · exact h.reads_nothing hlt hsize
      · rcases hcond with hzero | rfl | hle
        · exact absurd hzero hsize
        · exact h.reads_start hlt hsize
        · exact h.reads_first hlt hsize hle
    · intro hapart hreads
      by_contra hnot
      simp only [not_or, not_le] at hnot
      obtain ⟨hsize, haddr, hbeyond⟩ := hnot
      rcases Nat.lt_or_ge addr (blockSize s.mem n) with hin | hge
      · -- the first round reads out of the first block
        obtain ⟨-, hstays⟩ := hreads E.disk
        obtain ⟨-, hnull, -⟩ := h.chain E.disk
        have hfit := h.placed n List.mem_cons_self
        have hne : min size (total s (n :: ns) - addr) ≠ 0 := by omega
        have hread : deviceRead ⟨s, addr, min size (total s (n :: ns) - addr), n, []⟩ =
            some (blockStart s n + addr,
              min (min size (total s (n :: ns) - addr)) (blockSize s.mem n)) := by
          rw [deviceRead, if_neg (by simp only [not_or, not_le]; exact ⟨hne, hnull, hin⟩)]
          exact congrArg (fun a => some (a, _)) (Nat.mod_eq_of_lt (by
            show blockStart s n + addr < wordSize
            omega))
        have hend := (hstays _ (.here _) _ _ hread).2
        have hend' : blockStart s n + addr +
            min (min size (total s (n :: ns) - addr)) (blockSize s.mem n) ≤
            blockStart s n + blockSize s.mem n := hend
        omega
      · exact h.reads_behind hapart hlt hsize hge hreads

/-- The file of four bytes with a second block of four bytes, in block 4 of the disk. -/
def State.eightOnDisk : State :=
  { State.fourOnDisk.setSize 2 8 with
    mem := (((State.fourOnDisk.mem.put 4 0x1054 7).put 1 0x1070 5).put 8 0x1078 4).put 8 0x1080 4 }

theorem eightOnDisk_blockFile : BlockFile .plain State.eightOnDisk 2 [0x1050, 0x1070] := by
  have hptr : State.eightOnDisk.dataPtr 2 = 5 := by decide +kernel
  have hnext : blockNext State.eightOnDisk.mem 0x1050 = 7 := by decide +kernel
  refine ⟨⟨by decide, rfl, by decide, rfl, rfl, rfl⟩, fun d => ⟨?_, by decide, by decide +kernel, ?_⟩,
    by decide +kernel, by decide +kernel, by decide +kernel, by decide +kernel⟩
  · rw [hptr]
    exact resolveNode_root _ State.eightOnDisk (p := 5) (by decide) (by decide)
  · rw [hnext]
    refine ⟨resolveNode_root _ State.eightOnDisk (p := 7) (by decide) (by decide), by decide,
      by decide +kernel, ?_⟩
    show blockNext State.eightOnDisk.mem 0x1070 = 0
    decide +kernel

/-- The whole of the two blocks is read from the start. -/
theorem reads_slice_eight : ReadsSlice .plain State.eightOnDisk 2 [0x1050, 0x1070] 0 8 :=
  (reads_slice_iff .plain State.eightOnDisk 2 _ eightOnDisk_blockFile 0 8 (by decide +kernel)).1
    (.inr (.inl rfl))

/-- The first byte of the second block is not read. -/
theorem second_block_misread : ¬ ReadsSlice .plain State.eightOnDisk 2 [0x1050, 0x1070] 4 1 :=
  eightOnDisk_blockFile.reads_behind (by unfold Apart; decide +kernel) (by decide +kernel) (by decide)
    (by decide +kernel)

end Frosk.Fs
