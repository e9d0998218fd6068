import Mathlib.Tactic
import Frosk.Scheduler.Isolation

/-!
# Scheduler: the start of a process

What a new user thread finds when `yield` switches to it for the first time: the
end of `yield`, which takes the frame that `schedule` put on the stack, and
`preamble_code`, which takes the arguments that are behind it and calls the entry.
The thread reads and writes through the page map.

From `uspawn` to that switch any legal calls may be made; they leave the new thread
alone, so that it still has what `uspawn` loaded (`Waiting`).

Main result: `start_up`.
-/

namespace Frosk.Scheduler

open Lib Regions

-- ---------------------------------------------------------------------------
-- The processor
-- ---------------------------------------------------------------------------

/-- The byte at `a`, if its page is present. -/
def loadByte (s : Space) (a : Nat) : Option UInt8 :=
  let e := s.map (a / pageSize * pageSize)
  if e % 2 = 1 then some (s.mem (e / pageSize % 2 ^ 40 * pageSize + a % pageSize)) else none

def loadBytes (s : Space) : Nat → Nat → Option (List UInt8)
  | _, 0 => some []
  | a, n + 1 => do
    let b ← loadByte s a
    let l ← loadBytes s (a + 1) n
    some (b :: l)

def loadWord (s : Space) (a : Nat) : Option Nat := (loadBytes s a 8).map fromLE

/-- The registers that the start of a thread sets. -/
structure Cpu where
  rip    : Nat
  cs     : Nat
  rflags : Nat
  rsp    : Nat
  ss     : Nat
  rax    : Nat
  rdi    : Nat
  rsi    : Nat

/-- The end of `yield` for a thread without saved context: the word that says so is
taken from its stack, and then what `iretq` takes. -/
def leaveYield (s : State) (c : Cpu) : Option Cpu := do
  let rsp := (s.thr s.curThrd).rsp
  let rax ← loadWord s.space rsp
  if rax = 0 then none
  else do
    let rip ← loadWord s.space (rsp + 8)
    let cs ← loadWord s.space (rsp + 16)
    let rflags ← loadWord s.space (rsp + 24)
    let rsp' ← loadWord s.space (rsp + 32)
    let ss ← loadWord s.space (rsp + 40)
    some { c with rip := rip, cs := cs, rflags := rflags, rsp := rsp', ss := ss, rax := rax }

/-- `preamble_code`: three words are taken from the stack, and the last of them is
called. The address behind the call is `ret`. -/
def preambleCode (ret : Nat) (space : Space) (c : Cpu) : Option (Space × Cpu) := do
  let rdi ← loadWord space c.rsp
  let rsi ← loadWord space (c.rsp + 8)
  let rax ← loadWord space (c.rsp + 16)
  let rsp := c.rsp + 24 - 8
  let space ← (storeBytes rsp (leBytes 8 ret) space).toOption
  some (space, { c with rip := rax, rsp := rsp, rax := rax, rdi := rdi, rsi := rsi })

-- ---------------------------------------------------------------------------
-- What the program finds
-- ---------------------------------------------------------------------------

/-- The places of the arguments, one behind another from `a` on. -/
def argPtrs : Nat → List CStr → List Nat
  | _, [] => []
  | a, c :: argv => a :: argPtrs (a + (c.chars.length + 1)) argv

/-- Code, zeros, the array of arguments and their texts, each as address and size. -/
def parts (csz bsz argvt : Nat) (argv : List CStr) (ptrs : List Nat) : List (Nat × Nat) :=
  (uspaceBot, csz) :: (uspaceBot + csz, bsz) :: (argvt, 8 * argv.length) ::
    List.zipWith (fun p a => (p, a.chars.length + 1)) ptrs argv

/-- Control is at the entry, with the arguments in place and the image in memory. -/
structure Started (data : List UInt8) (bsz entry : Nat) (argv : List CStr) (code : Region)
    (space : Space) (c : Cpu) (ptrs : List Nat) : Prop where
  rip    : c.rip = entry % wordSize
  rdi    : c.rdi = argv.length
  length : ptrs.length = argv.length
  array  : ∀ j (hj : j < ptrs.length), loadWord space (c.rsi + 8 * j) = some ptrs[j]
  texts  : List.Forall₂ (fun p a => loadBytes space p (a.chars.length + 1) =
    some (a.chars ++ [0])) ptrs argv
  image  : loadBytes space uspaceBot data.length = some data
  bss    : loadBytes space (uspaceBot + data.length) bsz = some (List.replicate bsz 0)
  apart  : (parts data.length bsz c.rsi argv ptrs).Pairwise
    fun x y => x.1 + x.2 ≤ y.1 ∨ y.1 + y.2 ≤ x.1
  inside : ∀ x ∈ parts data.length bsz c.rsi argv ptrs,
    code.lower ≤ x.1 ∧ x.1 + x.2 ≤ code.upper

-- ---------------------------------------------------------------------------
-- Reading what is mapped
-- ---------------------------------------------------------------------------

/-- The block is mapped for the user. -/
structure Mapped (s : Space) (b : Block) : Prop where
  whole : b.Whole
  wide  : b.phys + b.size ≤ 2 ^ 52
  map   : ∀ v, b.HasPage v → s.map v = blockEntry 7 b (v - b.virt)

/-- Bytes of a mapped block are loaded. -/
theorem Mapped.loadBytes {s : Space} {b : Block} (h : Mapped s b) {n k : Nat} (hk : k + n ≤ b.size) :
    loadBytes s (b.virt + k) n = some (s.mem.slice (b.phys + k) n) := by
  induction n generalizing k with
  | zero => rfl
  | succ n ih =>
    obtain ⟨hpresent, hplace⟩ := mapped_place 7 (by decide) (by decide) h.whole h.wide h.map
      (k := k) (by omega)
    have hbyte : loadByte s (b.virt + k) = some (s.mem (b.phys + k)) := by
      rw [loadByte, if_pos hpresent, hplace]
    have hsplit : s.mem.slice (b.phys + k) (n + 1) =
        s.mem (b.phys + k) :: s.mem.slice (b.phys + k + 1) n := by
      rw [Nat.add_comm n 1, Memory.slice_append]
      rfl
    rw [Scheduler.loadBytes, hbyte, Nat.add_assoc, ih (by omega), hsplit]
    rfl

theorem Mapped.loadWord {s : Space} {b : Block} (h : Mapped s b) {k : Nat} (hk : k + 8 ≤ b.size) :
    loadWord s (b.virt + k) = some (s.mem.get 8 (b.phys + k)) := by
  rw [Scheduler.loadWord, h.loadBytes hk]
  rfl

-- ---------------------------------------------------------------------------
-- What is in the frames
-- ---------------------------------------------------------------------------

section Frames

variable {I : Image} {phys : Nat}

/-- There is a pointer for each argument. -/
theorem argPtrs_length (a : Nat) (argv : List CStr) : (argPtrs a argv).length = argv.length := by
  induction argv generalizing a with
  | nil => rfl
  | cons c argv ih => rw [argPtrs, List.length_cons, List.length_cons, ih]

/-- The text is at an offset between `lo` and `hi` behind `phys`, for the program at
`p`. -/
def TextAt (m : Memory) (phys lo hi p : Nat) (a : CStr) : Prop :=
  ∃ k, p = uspaceBot + k ∧ lo ≤ k ∧ k + (a.chars.length + 1) ≤ hi ∧
    m.slice (phys + k) (a.chars.length + 1) = a.chars ++ [0]

/-- The loop leaves the texts of the arguments where the array says. -/
theorem placeArgs_texts (phys : Nat) (argv : List CStr) (ka ki : Nat) (mem : Memory)
    (hka : ka + argv.length * 8 ≤ ki) :
    List.Forall₂ (TextAt (placeArgs phys ka ki argv mem) phys ki (ki + argsSize argv))
      (argPtrs (uspaceBot + ki) argv) argv := by
  induction argv generalizing ka ki mem with
  | nil => exact .nil
  | cons c argv ih =>
    rw [List.length_cons] at hka
    rw [argsSize_cons, placeArgs, argPtrs, Nat.add_assoc uspaceBot]
    have hlen : (c.chars ++ [0]).length = c.chars.length + 1 := by simp
    refine .cons ⟨ki, rfl, le_rfl, by omega, ?_⟩ ?_
    · rw [Memory.slice_congr fun i hi => placeArgs_outside _ _ _ _ _ (by omega) (by omega), ← hlen]
      exact Memory.slice_blit_self
    · have hrest := ih (ka + 8) (ki + (c.chars.length + 1)) ((mem.blit (phys + ka)
        (leBytes 8 (ki + uspaceBot))).blit (phys + ki) (c.chars ++ [0])) (by omega)
      refine hrest.imp ?_
      rintro p a ⟨k, hp, hlo, hhi, htext⟩
      exact ⟨k, hp, by omega, by omega, htext⟩

/-- The loop leaves the places of the texts in the array. -/
theorem placeArgs_array (argv : List CStr) (ka ki : Nat) (mem : Memory)
    (hka : ka + argv.length * 8 ≤ ki) (hword : uspaceBot + ki + argsSize argv < wordSize) (j : Nat)
    (hj : j < (argPtrs (uspaceBot + ki) argv).length) :
    (placeArgs phys ka ki argv mem).get 8 (phys + ka + 8 * j) =
      (argPtrs (uspaceBot + ki) argv)[j] := by
  induction argv generalizing ka ki mem j with
  | nil => simp [argPtrs] at hj
  | cons c argv ih =>
    rw [List.length_cons] at hka
    rw [argsSize_cons] at hword
    have hlen : (c.chars ++ [0]).length = c.chars.length + 1 := by simp
    simp only [placeArgs, argPtrs]
    cases j with
    | zero =>
      rw [Nat.mul_zero, Nat.add_zero, List.getElem_cons_zero,
        Memory.get_congr fun i hi => placeArgs_outside _ _ _ _ _ (by omega) (by omega),
        Memory.get_blit_of_disjoint (by rw [hlen]; omega), Nat.add_comm uspaceBot]
      refine Memory.get_put_self ?_
      unfold wordSize at hword
      omega
    | succ j =>
      have hplace : phys + ka + 8 * (j + 1) = phys + (ka + 8) + 8 * j := by ring
      rw [hplace, List.getElem_cons_succ]
      simp only [Nat.add_assoc uspaceBot]
      exact ih (ka + 8) (ki + (c.chars.length + 1)) _ (by omega) (by omega) j _

/-- Code, zeros and preamble are as they were stored. -/
theorem imageMem_slice (data : List UInt8) (bsz : Nat) (argv : List CStr) (mem : Memory) {k n : Nat}
    (hk : k + n ≤ data.length + bsz + I.preamble.length) :
    (imageMem I data bsz argv phys mem).slice (phys + k) n =
      ((data ++ List.replicate bsz 0 ++ I.preamble).drop k).take n := by
  have hoff : data.length + bsz + I.preamble.length ≤ argvOffset I data.length bsz := by
    unfold argvOffset
    omega
  have hlen := image_length (I := I) data bsz
  rw [imageMem, Memory.slice_congr fun i hi => placeArgs_outside _ _ _ _ _ (by omega) (by omega)]
  exact Memory.slice_blit_within (by omega)

/-- A word of the frame that `schedule` leaves. -/
theorem startFrame_word {start : Nat} {extv : List Nat} {kthrd : Bool} {mem : Memory} {a j : Nat}
    (hj : j < (startFrame I start extv kthrd).length) :
    (mem.blit a ((startFrame I start extv kthrd).flatMap (leBytes 8))).get 8 (a + 8 * j) =
      (startFrame I start extv kthrd)[j] % wordSize := by
  have hlen : ((startFrame I start extv kthrd).flatMap (leBytes 8)).length =
      8 * (startFrame I start extv kthrd).length := by
    rw [List.length_flatMap]
    simp [Nat.mul_comm]
  have hpow : 256 ^ 8 = wordSize := by decide
  rw [Memory.get, Memory.slice_blit_within (by omega), flatMap_leBytes_word hj, fromLE_leBytes, hpow]

end Frames

-- ---------------------------------------------------------------------------
-- A thread that has not run
-- ---------------------------------------------------------------------------

section Waiting

variable {E : Env} {I : Image} {cut : Nat} {s s' : State} {l : List Ptr} {t : Ptr}
  {data : List UInt8} {bsz entry : Nat} {argv : List CStr}

/-- What is on the stack of a new user thread, and where. -/
def userFrame (I : Image) (csz bsz entry : Nat) (argv : List CStr) : List Nat :=
  startFrame I (csz + bsz + uspaceBot) [entry, argvOffset I csz bsz + uspaceBot, argv.length] false

/-- The offset of the frame in the stack. -/
abbrev frameOffset : Nat := pageSize - 72

/-- The thread has a region with one block. -/
structure OneBlock (s : State) (t r : Ptr) (virt phys n : Nat) : Prop where
  owns   : Owns s t r
  blocks : (s.space.rgn r).blocks = [⟨virt, phys, n⟩]
  wide   : phys + n ≤ 2 ^ 52

/-- The thread has what `uspawn` loaded: the image, and the frame on its stack. -/
structure Waiting (I : Image) (data : List UInt8) (bsz entry : Nat) (argv : List CStr) (s : State)
    (t : Ptr) (n phys physS : Nat) (m mS : Memory) : Prop where
  rsp   : (s.thr t).rsp = lowHalfTop - 2 * pageSize + frameOffset
  code  : OneBlock s t (codeOf s t) uspaceBot phys n
  stack : OneBlock s t (stackOf s t) (lowHalfTop - 2 * pageSize) physS (2 * pageSize)
  range : (s.space.rgn (codeOf s t)).lower = uspaceBot ∧
    (s.space.rgn (codeOf s t)).upper = uspaceBot + n
  size  : wholeSize I data.length bsz argv ≤ n
  apart : ∀ i < n, phys + i < physS ∨ physS + 2 * pageSize ≤ phys + i
  image : ∀ i < n, s.space.mem (phys + i) = imageMem I data bsz argv phys m (phys + i)
  frame : ∀ i < 2 * pageSize, s.space.mem (physS + i) =
    mS.blit (physS + frameOffset) ((userFrame I data.length bsz entry argv).flatMap (leBytes 8))
      (physS + i)

/-- The memory of the block is left alone with its thread. -/
theorem OneBlock.mem {r : Ptr} {virt phys n : Nat} (h : OneBlock s t r virt phys n)
    (hu : Untouched s s' t) {i : Nat} (hi : i < n) :
    s'.space.mem (phys + i) = s.space.mem (phys + i) := by
  have hframe : phys + i / pageSize * pageSize ∈ (s.space.rgn r).frames := by
    rw [Region.frames, h.blocks, List.flatMap_singleton, mem_pageRange]
    refine ⟨i / pageSize, ?_, rfl⟩
    dsimp only
    unfold pageSize
    omega
  have hmem := hu.mem r h.owns _ hframe (i % pageSize) (Nat.mod_lt _ (by decide))
  have hsum : phys + i / pageSize * pageSize + i % pageSize = phys + i := by
    unfold pageSize
    omega
  rw [hsum] at hmem
  exact hmem

/-- An untouched thread keeps its one block. -/
theorem OneBlock.keep {r : Ptr} {virt phys n : Nat} (h : OneBlock s t r virt phys n)
    (hu : Untouched s s' t) : OneBlock s' t r virt phys n := by
  refine ⟨?_, ?_, h.wide⟩
  · rw [Owns, hu.stack, hu.code]
    exact h.owns
  · rw [hu.rgn r h.owns]
    exact h.blocks

theorem Waiting.keep {n phys physS : Nat} {m mS : Memory}
    (h : Waiting I data bsz entry argv s t n phys physS m mS) (hu : Untouched s s' t) :
    Waiting I data bsz entry argv s' t n phys physS m mS := by
  refine ⟨hu.rsp.trans h.rsp, ?_, ?_, ?_, h.size, h.apart, ?_, ?_⟩
  · rw [hu.code]
    exact h.code.keep hu
  · rw [hu.stack]
    exact h.stack.keep hu
  · rw [hu.code, hu.rgn _ h.code.owns]
    exact h.range
  · intro i hi
    exact (h.code.mem hu hi).trans (h.image i hi)
  · intro i hi
    exact (h.stack.mem hu hi).trans (h.frame i hi)

/-- What `uspawn` leaves. -/
theorem Uspawned.waiting {mid : State} {p code n phys stack physS : Nat} {space : Space}
    (h : Uspawned E I s s' data bsz entry argv l mid p code n phys t stack physS space) :
    Waiting I data bsz entry argv s' t n phys physS s.space.mem mid.space.mem := by
  obtain ⟨hspace, hstackOf, _, hcodeOf, hrsp⟩ := h.thread.regions
  rw [h.own] at hcodeOf
  obtain ⟨_, hpaged, hle, hsmall⟩ := h.size
  have hpos : 0 < n := by
    have hlong := I.long
    unfold wholeSize argvOffset at hle
    omega
  have hcode : code ≠ NULL := by
    rw [h.loaded.ptr]
    exact E.kalloc.ne_null _
  have hstack : stack ≠ NULL := by
    rw [h.thread.loaded.ptr]
    exact E.kalloc.ne_null _
  have hdiffer : code ≠ stack := by
    intro heq
    refine h.thread.loaded.new (heq ▸ List.mem_cons_of_mem _ ?_)
    rw [h.loaded.used]
    exact List.mem_cons_self
  have hcodeRgn : space.rgn code = ⟨uspaceBot, n, [⟨uspaceBot, phys, n⟩], true⟩ := by
    have hmid := h.loaded.region
    rw [oneBlock, if_pos hpos] at hmid
    rw [h.thread.loaded.rgn, Function.update_of_ne hdiffer]
    exact hmid
  have happart : ∀ i < n, phys + i < physS ∨ physS + 2 * pageSize ≤ phys + i := by
    intro i hi
    have hin : phys + i / pageSize * pageSize ∈ mid.space.frames := by
      rw [h.loaded.frames, List.mem_append, mem_pageRange]
      refine .inl ⟨i / pageSize, ?_, rfl⟩
      unfold pageSize
      omega
    have hphys := E.phys.paged h.loaded.pick
    have hside := h.thread.loaded.fresh hin (by unfold pageSize at *; omega)
    unfold pageSize at *
    omega
  refine ⟨?_, ⟨⟨?_, .inr rfl⟩, ?_, E.wide h.loaded.pick⟩, ⟨⟨?_, .inl rfl⟩, ?_,
    E.wide h.thread.loaded.pick⟩, ?_, hle, happart, fun i hi => ?_, fun i hi => ?_⟩
  · rw [hrsp]
    rfl
  · rw [hcodeOf]
    exact hcode
  · rw [hcodeOf, hspace, hcodeRgn]
  · rw [hstackOf]
    exact hstack
  · rw [hstackOf, hspace, h.thread.loaded.region]
    rfl
  · rw [hcodeOf, hspace, hcodeRgn]
    refine ⟨rfl, ?_⟩
    show (uspaceBot + n) % wordSize = _
    exact Nat.mod_eq_of_lt (by omega)
  · rw [hspace, h.thread.loaded.mem _ (happart i hi), ← h.mem]
    rfl
  · rw [hspace, h.thread.mem]
    rfl

-- ---------------------------------------------------------------------------
-- The first switch
-- ---------------------------------------------------------------------------

variable {n phys physS : Nat} {m mS : Memory}

/-- Both blocks of a waiting thread are mapped once it is the current thread. -/
theorem Waiting.mapped (hinv : Inv cut s l) (hcur : s.curThrd = t)
    (h : Waiting I data bsz entry argv s t n phys physS m mS) :
    Mapped s.space ⟨uspaceBot, phys, n⟩ ∧
      Mapped s.space ⟨lowHalfTop - 2 * pageSize, physS, 2 * pageSize⟩ := by
  subst hcur
  have hne : s.curThrd ≠ NULL := by
    intro heq
    refine h.code.owns.1 ?_
    rw [heq]
    rfl
  have hmem := hinv.cur hne
  have hok := hinv.each _ hmem
  have hcode : ⟨uspaceBot, phys, n⟩ ∈ (s.space.rgn (codeOf s s.curThrd)).blocks := by
    rw [h.code.blocks]
    exact List.mem_singleton_self _
  have hstack : ⟨lowHalfTop - 2 * pageSize, physS, 2 * pageSize⟩ ∈
      (s.space.rgn (stackOf s s.curThrd)).blocks := by
    rw [h.stack.blocks]
    exact List.mem_singleton_self _
  constructor
  · have hwhole := (hinv.owned_spec hmem h.code.owns).2 _ hcode
    refine ⟨hwhole, h.code.wide, ?_⟩
    intro v hv
    have hin := (hok.code h.code.owns.1).2.inside _ hcode
    have hbounds := (hok.code h.code.owns.1).2.bounds hinv.split.word
    have hvirt := hwhole.virt
    unfold Block.HasPage at hv
    refine hinv.low.own v (by omega) (by omega) (by unfold pageSize at *; omega) _ ?_ hv
    rw [blocks_of_ne h.code.owns.1]
    exact hcode
  · have hwhole := (hinv.owned_spec hmem h.stack.owns).2 _ hstack
    refine ⟨hwhole, h.stack.wide, ?_⟩
    intro v hv
    have hin := hok.stack.2.inside _ hstack
    have hbounds := hok.stack.2.bounds (by decide)
    have hvirt := hwhole.virt
    unfold Block.HasPage at hv
    refine hinv.high.own v (by omega) (by omega) (by unfold pageSize at *; omega) _ ?_ hv
    rw [blocks_of_ne h.stack.owns.1]
    exact hstack

/-- A word of the frame, as the thread reads it. -/
theorem Waiting.word (h : Waiting I data bsz entry argv s t n phys physS m mS)
    (hmapped : Mapped s.space ⟨lowHalfTop - 2 * pageSize, physS, 2 * pageSize⟩) (j : Nat)
    (hj : j < 9) :
    loadWord s.space (lowHalfTop - 2 * pageSize + (frameOffset + 8 * j)) =
      some ((userFrame I data.length bsz entry argv)[j] % wordSize) := by
  have hroom : frameOffset + 8 * j + 8 ≤ 2 * pageSize := by
    unfold frameOffset pageSize
    omega
  refine (hmapped.loadWord hroom).trans (congrArg some ?_)
  have hframe : ∀ i < 8, s.space.mem (physS + (frameOffset + 8 * j) + i) =
      mS.blit (physS + frameOffset) ((userFrame I data.length bsz entry argv).flatMap (leBytes 8))
        (physS + (frameOffset + 8 * j) + i) := by
    intro i hi
    rw [Nat.add_assoc]
    exact h.frame _ (by omega)
  show s.space.mem.get 8 (physS + (frameOffset + 8 * j)) = _
  rw [Memory.get_congr hframe, ← Nat.add_assoc]
  exact startFrame_word hj

/-- The registers after `yield`. -/
def entered (I : Image) (csz bsz : Nat) (c : Cpu) : Cpu :=
  { c with
    rip := uspaceBot + csz + bsz, cs := userCs ||| 3, rflags := (I.flags ||| 0x200) % wordSize
    rsp := lowHalfTop - pageSize - 24, ss := userDs ||| 3, rax := 1 }

/-- Switched to, it enters the preamble. -/
theorem Waiting.leaveYield (hcur : s.curThrd = t)
    (h : Waiting I data bsz entry argv s t n phys physS m mS)
    (hmapped : Mapped s.space ⟨lowHalfTop - 2 * pageSize, physS, 2 * pageSize⟩)
    (hword : wholeSize I data.length bsz argv + uspaceBot < wordSize) (c : Cpu) :
    leaveYield s c = some (entered I data.length bsz c) := by
  have hstart : (data.length + bsz + uspaceBot) % wordSize = uspaceBot + data.length + bsz := by
    rw [Nat.mod_eq_of_lt]
    · omega
    · unfold wholeSize argvOffset at hword
      omega
  have hflag : loadWord s.space (s.thr s.curThrd).rsp = some 1 := by
    rw [hcur, h.rsp]
    exact h.word hmapped 0 (by decide)
  have hrip : loadWord s.space ((s.thr s.curThrd).rsp + 8) =
      some (uspaceBot + data.length + bsz) := by
    rw [hcur, h.rsp, ← hstart]
    exact h.word hmapped 1 (by decide)
  have hcs : loadWord s.space ((s.thr s.curThrd).rsp + 16) = some (userCs ||| 3) := by
    have hval : (userCs ||| 3) % wordSize = userCs ||| 3 := by decide
    rw [hcur, h.rsp, ← hval]
    exact h.word hmapped 2 (by decide)
  have hrflags : loadWord s.space ((s.thr s.curThrd).rsp + 24) =
      some ((I.flags ||| 0x200) % wordSize) := by
    rw [hcur, h.rsp]
    exact h.word hmapped 3 (by decide)
  have hrsp : loadWord s.space ((s.thr s.curThrd).rsp + 32) =
      some (lowHalfTop - pageSize - 24) := by
    rw [hcur, h.rsp]
    exact h.word hmapped 4 (by decide)
  have hss : loadWord s.space ((s.thr s.curThrd).rsp + 40) = some (userDs ||| 3) := by
    have hval : (userDs ||| 3) % wordSize = userDs ||| 3 := by decide
    rw [hcur, h.rsp, ← hval]
    exact h.word hmapped 5 (by decide)
  simp only [Scheduler.leaveYield, hflag, hrip, hcs, hrflags, hrsp, hss, Option.bind_eq_bind,
    Option.bind_some]
  rfl

/-- Memory after the preamble, whose call leaves the return address on the stack. -/
def calledMem (physS ret : Nat) (mem : Memory) : Memory :=
  mem.blit (physS + (frameOffset + 64)) (leBytes 8 ret)

/-- The registers at the entry. -/
def called (I : Image) (csz bsz entry : Nat) (argv : List CStr) (c : Cpu) : Cpu :=
  { c with
    rip := entry % wordSize, rsp := lowHalfTop - pageSize - 8, rax := entry % wordSize
    rdi := argv.length, rsi := uspaceBot + argvOffset I csz bsz }

/-- The preamble calls the entry of the program. -/
theorem Waiting.preambleCode (h : Waiting I data bsz entry argv s t n phys physS m mS)
    (hmapped : Mapped s.space ⟨lowHalfTop - 2 * pageSize, physS, 2 * pageSize⟩)
    (hword : wholeSize I data.length bsz argv + uspaceBot < wordSize) (ret : Nat) {c : Cpu}
    (hc : c.rsp = lowHalfTop - pageSize - 24) :
    preambleCode ret s.space c =
      some ({ s.space with mem := calledMem physS ret s.space.mem },
        called I data.length bsz entry argv c) := by
  have hargc : argv.length % wordSize = argv.length := by
    refine Nat.mod_eq_of_lt ?_
    unfold wholeSize at hword
    omega
  have hargv : (argvOffset I data.length bsz + uspaceBot) % wordSize =
      uspaceBot + argvOffset I data.length bsz := by
    rw [Nat.add_comm]
    refine Nat.mod_eq_of_lt ?_
    unfold wholeSize at hword
    omega
  have hrdi : loadWord s.space c.rsp = some argv.length := by
    rw [hc, ← hargc]
    exact h.word hmapped 6 (by decide)
  have hrsi : loadWord s.space (c.rsp + 8) = some (uspaceBot + argvOffset I data.length bsz) := by
    rw [hc, ← hargv]
    exact h.word hmapped 7 (by decide)
  have hrax : loadWord s.space (c.rsp + 16) = some (entry % wordSize) := by
    rw [hc]
    exact h.word hmapped 8 (by decide)
  have hstore : storeBytes (c.rsp + 24 - 8) (leBytes 8 ret) s.space =
      .ok { s.space with mem := calledMem physS ret s.space.mem } := by
    have hroom : frameOffset + 64 + (leBytes 8 ret).length ≤ 2 * pageSize := by
      rw [leBytes_length]
      decide
    have hplace : lowHalfTop - pageSize - 24 + 24 - 8 =
        lowHalfTop - 2 * pageSize + (frameOffset + 64) := by decide
    rw [hc, hplace]
    exact storeBytes_spec 7 (by decide) (by decide) hmapped.whole hmapped.wide (leBytes 8 ret)
      hmapped.map hroom
  simp only [Scheduler.preambleCode, hrdi, hrsi, hrax, hstore, Option.bind_eq_bind, Option.bind_some,
    Except.toOption]
  rw [hc]
  rfl

/-- Bytes of the image, as the program reads them. -/
theorem Waiting.loadImage (h : Waiting I data bsz entry argv s t n phys physS m mS)
    (hmapped : Mapped s.space ⟨uspaceBot, phys, n⟩) {mem : Memory}
    (hmem : ∀ i < n, mem (phys + i) = s.space.mem (phys + i)) {k j : Nat} (hk : k + j ≤ n) :
    loadBytes { s.space with mem := mem } (uspaceBot + k) j =
      some ((imageMem I data bsz argv phys m).slice (phys + k) j) := by
  have hmapped' : Mapped { s.space with mem := mem } ⟨uspaceBot, phys, n⟩ :=
    ⟨hmapped.whole, hmapped.wide, hmapped.map⟩
  refine (hmapped'.loadBytes hk).trans (congrArg some (Memory.slice_congr fun i hi => ?_))
  show mem (phys + k + i) = _
  rw [Nat.add_assoc, ← h.image _ (by omega)]
  exact hmem _ (by omega)

/-- The call of the preamble does not touch the image. -/
theorem Waiting.calledMem_image (h : Waiting I data bsz entry argv s t n phys physS m mS) (ret : Nat)
    {i : Nat} (hi : i < n) : calledMem physS ret s.space.mem (phys + i) = s.space.mem (phys + i) := by
  refine Memory.blit_outside ?_
  have happart := h.apart i hi
  rw [leBytes_length]
  unfold frameOffset pageSize at *
  omega

/-- The texts are one behind another. -/
theorem argPtrs_parts (a : Nat) (argv : List CStr) :
    (∀ x ∈ List.zipWith (fun p a => (p, a.chars.length + 1)) (argPtrs a argv) argv,
      a ≤ x.1 ∧ x.1 + x.2 ≤ a + argsSize argv) ∧
    (List.zipWith (fun p (a : CStr) => (p, a.chars.length + 1)) (argPtrs a argv) argv).Pairwise
      fun x y => x.1 + x.2 ≤ y.1 ∨ y.1 + y.2 ≤ x.1 := by
  induction argv generalizing a with
  | nil => simp [argPtrs]
  | cons c argv ih =>
    obtain ⟨hinside, hapart⟩ := ih (a + (c.chars.length + 1))
    rw [argPtrs, List.zipWith_cons_cons, argsSize_cons]
    constructor
    · intro x hx
      rcases List.mem_cons.mp hx with rfl | hx
      · dsimp only
        omega
      · have hin := hinside x hx
        omega
    · refine List.pairwise_cons.mpr ⟨?_, hapart⟩
      intro y hy
      have hin := hinside y hy
      dsimp only
      omega

/-- The parts of the image are apart, and in the region of the code. -/
theorem parts_spec (I : Image) (csz bsz : Nat) (argv : List CStr) :
    (parts csz bsz (uspaceBot + argvOffset I csz bsz) argv
      (argPtrs (uspaceBot + (argvOffset I csz bsz + argv.length * 8)) argv)).Pairwise
      (fun x y => x.1 + x.2 ≤ y.1 ∨ y.1 + y.2 ≤ x.1) ∧
    ∀ x ∈ parts csz bsz (uspaceBot + argvOffset I csz bsz) argv
      (argPtrs (uspaceBot + (argvOffset I csz bsz + argv.length * 8)) argv),
      uspaceBot ≤ x.1 ∧ x.1 + x.2 ≤ uspaceBot + wholeSize I csz bsz argv := by
  obtain ⟨hinside, hapart⟩ :=
    argPtrs_parts (uspaceBot + (argvOffset I csz bsz + argv.length * 8)) argv
  have hoff : csz + bsz ≤ argvOffset I csz bsz := by
    unfold argvOffset
    omega
  unfold parts wholeSize
  constructor
  · refine List.pairwise_cons.mpr ⟨fun y hy => ?_, List.pairwise_cons.mpr ⟨fun y hy => ?_,
      List.pairwise_cons.mpr ⟨fun y hy => ?_, hapart⟩⟩⟩
    · rcases List.mem_cons.mp hy with rfl | hy
      · exact .inl le_rfl
      · rcases List.mem_cons.mp hy with rfl | hy
        · dsimp only
          omega
        · have hin := hinside y hy
          dsimp only
          omega
    · rcases List.mem_cons.mp hy with rfl | hy
      · dsimp only
        omega
      · have hin := hinside y hy
        dsimp only
        omega
    · have hin := hinside y hy
      dsimp only
      omega
  · intro x hx
    rcases List.mem_cons.mp hx with rfl | hx
    · dsimp only
      omega
    · rcases List.mem_cons.mp hx with rfl | hx
      · dsimp only
        omega
      · rcases List.mem_cons.mp hx with rfl | hx
        · dsimp only
          omega
        · have hin := hinside x hx
          omega

/-- So the program is started, with its arguments. -/
theorem Waiting.started (h : Waiting I data bsz entry argv s t n phys physS m mS)
    (hmapped : Mapped s.space ⟨uspaceBot, phys, n⟩)
    (hword : wholeSize I data.length bsz argv + uspaceBot < wordSize) (ret : Nat) (c : Cpu) :
    Started data bsz entry argv (s.space.rgn (codeOf s t))
      { s.space with mem := calledMem physS ret s.space.mem }
      (called I data.length bsz entry argv c)
      (argPtrs (uspaceBot + (argvOffset I data.length bsz + argv.length * 8)) argv) := by
  have hsize := h.size
  have hoff : data.length + bsz + I.preamble.length ≤ argvOffset I data.length bsz := by
    unfold argvOffset
    omega
  obtain ⟨hapart, hinside⟩ := parts_spec I data.length bsz argv
  have hmem : ∀ i < n, calledMem physS ret s.space.mem (phys + i) = s.space.mem (phys + i) :=
    fun i hi => h.calledMem_image ret hi
  unfold wholeSize at hsize hword
  refine ⟨rfl, rfl, argPtrs_length .., ?_, ?_, ?_, ?_, hapart, ?_⟩
  · intro j hj
    have hlen := argPtrs_length (uspaceBot + (argvOffset I data.length bsz + argv.length * 8)) argv
    have hload := h.loadImage hmapped hmem (k := argvOffset I data.length bsz + 8 * j) (j := 8)
      (by omega)
    show loadWord _ (uspaceBot + argvOffset I data.length bsz + 8 * j) = _
    rw [Nat.add_assoc, Scheduler.loadWord, hload, Option.map_some, ← Nat.add_assoc]
    exact congrArg some (placeArgs_array argv _ _ _ le_rfl (by omega) j hj)
  · have htexts := placeArgs_texts phys argv (argvOffset I data.length bsz) _
      (m.blit phys (data ++ List.replicate bsz 0 ++ I.preamble)) le_rfl
    refine htexts.imp ?_
    intro p a ⟨k, hp, hlo, hhi, htext⟩
    rw [hp, h.loadImage hmapped hmem (by omega)]
    exact congrArg some htext
  · have hload := h.loadImage hmapped hmem (k := 0) (j := data.length) (by omega)
    rw [imageMem_slice _ _ _ _ (by omega)] at hload
    simpa using hload
  · have hload := h.loadImage hmapped hmem (k := data.length) (j := bsz) (by omega)
    rw [imageMem_slice _ _ _ _ (by omega)] at hload
    simpa using hload
  · intro x hx
    have hin := hinside x hx
    rw [h.range.1, h.range.2]
    unfold wholeSize at hin
    omega

end Waiting

-- ---------------------------------------------------------------------------
-- From uspawn to the entry
-- ---------------------------------------------------------------------------

section StartUp

variable {E : Env} {I : Image} {cut : Nat} {s₀ s s' : State} {l : List Ptr}

/-- A legal call that returns. -/
def LegalStep (cut : Nat) (E : Env) (I : Image) (s : State) (a : Op) (s' : State) : Prop :=
  LegalAt cut E I s a ∧ Step E I s a s' ()

/-- A legal call keeps the invariant. -/
theorem legalStep_inv (h : Inv cut s l) {a : Op} (hstep : LegalStep cut E I s a s') :
    ∃ l', Inv cut s' l' ∧ Kept s s' l l' := by
  obtain ⟨s₁, l', ⟨n, hn⟩, hinv, hkept⟩ := call_inv h hstep.1
  obtain ⟨m, hm⟩ := hstep.2
  rw [call_unique hm hn]
  exact ⟨l', hinv, hkept⟩

/-- A run of legal calls keeps the invariant. -/
theorem trace_inv {ops : List Op} (h : Inv cut s l) (htrace : Trace (LegalStep cut E I) s ops s') :
    ∃ l', Inv cut s' l' := by
  induction htrace generalizing l with
  | nil s => exact ⟨l, h⟩
  | cons hstep _ ih =>
    obtain ⟨l₁, hinv, _⟩ := legalStep_inv h hstep
    exact ih hinv

/-- The thread `t` is not switched to. -/
def Without (t : Ptr) (step : State → Op → State → Prop) (s : State) (a : Op) (s' : State) : Prop :=
  step s a s' ∧ s'.curThrd ≠ t

/-- A thread that waits goes on to wait while it is not switched to. -/
theorem trace_waiting {data : List UInt8} {bsz entry : Nat} {argv : List CStr} {t : Ptr}
    {n phys physS : Nat} {m mS : Memory} {ops : List Op} (hinv : Inv cut s l) (ht : t ∈ l)
    (hcur : s.curThrd ≠ t) (hwaiting : Waiting I data bsz entry argv s t n phys physS m mS)
    (htrace : Trace (Without t (LegalStep cut E I)) s ops s') :
    ∃ l', Inv cut s' l' ∧ t ∈ l' ∧ s'.curThrd ≠ t ∧
      Waiting I data bsz entry argv s' t n phys physS m mS := by
  induction htrace generalizing l with
  | nil s => exact ⟨l, hinv, ht, hcur, hwaiting⟩
  | cons hstep _ ih =>
    obtain ⟨l₁, hinv₁, hkept⟩ := legalStep_inv hinv hstep.1
    obtain ⟨ht₁, hsame⟩ := hkept t ht
    exact ih hinv₁ ht₁ hstep.2 (hwaiting.keep (hsame hcur.symm))

/-- Whatever is called before `uspawn` and from it to the first switch to the new
thread: `uspawn` returns, `yield` leaves for the preamble, and the preamble for the
entry, with everything in place. -/
theorem start_up (hcut : IsCut cut) (hboot : Boot s₀) {before : List Op}
    (hbefore : Trace (LegalStep cut E I) s₀ before s) (data : List UInt8) (bsz entry : Nat)
    (argv : List CStr) (hlegal : LegalAt cut E I s (.uspawn data bsz entry argv)) :
    ∃ s₁ p t, uspawn E I data bsz entry argv s = .ok (s₁, p) ∧
      ¬ Listed s t ∧ Listed s₁ t ∧ (s₁.thr t).parent = p ∧
      ∀ between s₂ rsp s₃, Trace (Without t (LegalStep cut E I)) s₁ between s₂ →
        Step E I s₂ (.yield rsp) s₃ () → s₃.curThrd = t → ∀ c ret, ∃ c₁ space c₂ ptrs,
          leaveYield s₃ c = some c₁ ∧ c₁.rip = uspaceBot + data.length + bsz ∧
          loadBytes s₃.space c₁.rip I.preamble.length = some I.preamble ∧
          preambleCode ret s₃.space c₁ = some (space, c₂) ∧
          Started data bsz entry argv (s₃.space.rgn (codeOf s₃ t)) space c₂ ptrs := by
  obtain ⟨l, hinv⟩ := trace_inv (hboot.inv hcut) hbefore
  obtain ⟨hend, hpages⟩ := hlegal
  have hcutw := hcut.word
  have hword : wholeSize I data.length bsz argv + uspaceBot < wordSize := by omega
  obtain ⟨⟨s₁, p⟩, hcall, mid, code, n, phys, t, stack, physS, space, hspawned⟩ :=
    exists_of_returns (uspawn_spec (E := E) hinv.base (by omega) entry) hpages
  have hinv₁ : Inv cut s₁ (insertSecond t l) := hspawned.inv hinv hend
  have hwaiting := hspawned.waiting
  have ht₁ : t ∈ insertSecond t l := mem_insertSecond.mpr (.inl rfl)
  have hnew : t ∉ l := by
    intro hmem
    have hused := hspawned.quiet.used t (hinv.each t hmem).used
    rw [hspawned.thread.ptr] at hused
    exact E.kalloc.fresh _ hused
  have hcur₁ : s₁.curThrd ≠ t := by
    have hsame : s₁.curThrd = s.curThrd := hspawned.thread.listed.cur.trans hspawned.quiet.cur
    rintro rfl
    refine hnew ?_
    rw [hsame]
    refine hinv.cur ?_
    rw [← hsame]
    exact hinv₁.nonnull ht₁
  refine ⟨s₁, p, t, hcall, fun hl => hnew ((listed_iff hinv.ring).mp hl),
    (listed_iff hinv₁.ring).mpr ht₁, hspawned.thread.regions.2.2.1, ?_⟩
  intro between s₂ rsp s₃ hbetween hyield hcur c ret
  obtain ⟨l₂, hinv₂, ht₂, hcur₂, hwaiting₂⟩ := trace_waiting hinv₁ ht₁ hcur₁ hwaiting hbetween
  have hstep : LegalStep cut E I s₂ (.yield rsp) s₃ := ⟨trivial, hyield⟩
  obtain ⟨l₃, hinv₃, hkept⟩ := legalStep_inv hinv₂ hstep
  have hwaiting₃ := hwaiting₂.keep ((hkept t ht₂).2 hcur₂.symm)
  obtain ⟨hcode, hstack⟩ := hwaiting₃.mapped hinv₃ hcur
  have hsize := hwaiting₃.size
  refine ⟨_, _, _, _, hwaiting₃.leaveYield hcur hstack hword c, rfl, ?_,
    hwaiting₃.preambleCode hstack hword ret rfl, hwaiting₃.started hcode hword ret _⟩
  have hoff : data.length + bsz + I.preamble.length ≤ n := by
    unfold wholeSize argvOffset at hsize
    omega
  have hsame : ∀ i < n, s₃.space.mem (phys + i) = s₃.space.mem (phys + i) := fun _ _ => rfl
  have hload := hwaiting₃.loadImage hcode hsame (k := data.length + bsz) (j := I.preamble.length)
    hoff
  rw [imageMem_slice _ _ _ _ le_rfl, ← Nat.add_assoc] at hload
  refine hload.trans (congrArg some ?_)
  rw [List.drop_append_of_le_length (by simp), List.drop_eq_nil_of_le (by simp)]
  simp

end StartUp

/-- A process with two arguments is the first to run. -/
theorem start_up_alone :
    ∃ s₁ p s₃ c₁ space c₂ ptrs,
      uspawn smallEnv smallImage [0x90, 0xC3] 8 0x200000
        [⟨[0x61], by decide⟩, ⟨[0x62, 0x63], by decide⟩] bootState = .ok (s₁, p) ∧
      Step smallEnv smallImage s₁ (.yield 0) s₃ () ∧ (s₁.thr s₃.curThrd).parent = p ∧
      leaveYield s₃ ⟨0, 0, 0, 0, 0, 0, 0, 0⟩ = some c₁ ∧
      preambleCode 0 s₃.space c₁ = some (space, c₂) ∧
      Started [0x90, 0xC3] 8 0x200000 [⟨[0x61], by decide⟩, ⟨[0x62, 0x63], by decide⟩]
        (s₃.space.rgn (codeOf s₃ s₃.curThrd)) space c₂ ptrs := by
  obtain ⟨s₁, p, t, hcall, _, ⟨_, k, hlisted⟩, hparent, hstart⟩ :=
    start_up (E := smallEnv) (I := smallImage) isCut_middle bootState_boot (.nil _) [0x90, 0xC3] 8
      0x200000 [⟨[0x61], by decide⟩, ⟨[0x62, 0x63], by decide⟩]
      ⟨by decide, by decide +kernel⟩
  -- the ring is the new thread alone, and the switch is to it
  have hrun : (uspawn smallEnv smallImage [0x90, 0xC3] 8 0x200000
      [⟨[0x61], by decide⟩, ⟨[0x62, 0x63], by decide⟩] bootState >>= fun x =>
      (yield 10 0 x.1).map fun s₃ => (x.1.headThrd, x.1.next x.1.headThrd, s₃.curThrd)).toOption =
      some (3, 3, 3) := by
    decide +kernel
  rw [hcall, ok_bind] at hrun
  cases hyield : yield 10 0 s₁ with
  | error f =>
    rw [hyield] at hrun
    cases hrun
  | ok s₃ =>
    rw [hyield] at hrun
    obtain ⟨hhead, hnext, hcur⟩ : s₁.headThrd = 3 ∧ s₁.next s₁.headThrd = 3 ∧ s₃.curThrd = 3 := by
      have heq : (s₁.headThrd, s₁.next s₁.headThrd, s₃.curThrd) = (3, 3, 3) := Option.some.inj hrun
      simpa using heq
    have ht : t = 3 := by
      rw [← hlisted, hhead]
      rw [hhead] at hnext
      exact Function.iterate_fixed hnext k
    have hstep : Step smallEnv smallImage s₁ (.yield 0) s₃ () := ⟨10, hyield⟩
    obtain ⟨c₁, space, c₂, ptrs, hleave, _, _, hpreamble, hstarted⟩ :=
      hstart [] s₁ 0 s₃ (.nil _) hstep (hcur.trans ht.symm) ⟨0, 0, 0, 0, 0, 0, 0, 0⟩ 0
    rw [← ht] at hcur
    rw [← hcur] at hparent hstarted
    exact ⟨s₁, p, s₃, c₁, space, c₂, ptrs, hcall, hstep, hparent, hleave, hpreamble, hstarted⟩

end Frosk.Scheduler
