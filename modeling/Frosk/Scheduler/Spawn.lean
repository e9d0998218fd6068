import Mathlib.Tactic
import Frosk.Regions.Growth
import Frosk.Scheduler.Definitions

/-!
# Scheduler: new processes and threads

`schedule` and `uspawn` come apart into what they do to the address space
(`loadStack`, `loadCode`) and what they do to the rings (`enlist`,
`addProcess`). A new region is filled at a temporary place in the high half; when
it is moved to its own place, the page map below the high half is as before and
the region has its block and its frames (`Loaded`).

Main results: `loadStack_spec` and `loadCode_spec`, which say that the loading
returns and what the frames of the new regions then hold.
-/

namespace Frosk.Scheduler

open Lib Regions

variable {E : Env} {I : Image}

-- ---------------------------------------------------------------------------
-- The parts of schedule and uspawn
-- ---------------------------------------------------------------------------

/-- What `schedule` does to the address space. -/
def loadStack (E : Env) (I : Image) (start : Nat) (extv : List Nat) (kthrd : Bool)
    (space : Space) : Except Fault (Space × Ptr) := do
  let (space, tvirt) ← allocVirt E (2 * pageSize) space
  let (space, stack) ← allocate E ((tvirt + 2 * pageSize) % wordSize) (2 * pageSize) false space
  let (space, _) ← swapin stack 3 space
  let frame := (startFrame I start extv kthrd).flatMap (leBytes 8)
  let space ← storeBytes (tvirt + pageSize - 8 * (6 + extv.length)) frame space
  let space ← swapout stack space
  .ok (freeVirt tvirt (2 * pageSize) (shiftRgn stack lowHalfTop space), stack)

/-- The fields `schedule` gives a new thread. -/
def newThread (par stack extz : Nat) (kthrd : Bool) (v : Thread) : Thread :=
  { v with
    stack := stack, state := .SETUP, parent := par
    rsp := lowHalfTop - pageSize - 8 * (6 + extz), pageFl := if kthrd then 3 else 7 }

/-- What `schedule` does to the threads. -/
def enlist (par t : Ptr) (s : State) : Except Fault State := do
  let s ← s.lock
  let s := (linkThread t s).unlock
  let s := s.modifyThr t fun v => { v with nextInproc := (s.proc par).first }
  let s := s.modifyProc par fun v => { v with first := t }
  .ok (s.modifyThr t fun v => { v with state := .READY })

/-- `schedule` in two parts. -/
theorem schedule_eq (par start : Nat) (extv : List Nat) (kthrd : Bool) (s : State) :
    schedule E I par start extv kthrd s = (do
      let (space, t) := s.space.alloc E
      let (space, stack) ← loadStack E I start extv kthrd space
      let s ← enlist par t
        ({ s with space := space }.modifyThr t (newThread par stack extv.length kthrd))
      .ok (s, t)) := by
  unfold schedule loadStack
  simp only [bind_assoc]
  refine bind_congr fun ⟨space, tvirt⟩ => ?_
  dsimp only
  refine bind_congr fun ⟨space, stack⟩ => ?_
  dsimp only
  refine bind_congr fun ⟨space, _⟩ => ?_
  dsimp only
  refine bind_congr ?_
  intro space
  refine bind_congr ?_
  intro space
  simp only [enlist, bind_assoc, ok_bind]
  rfl

/-- What `uspawn` does to the address space; the last result is where the array of
arguments is for the new process. -/
def loadCode (E : Env) (I : Image) (data : List UInt8) (bsz : Nat) (argv : List CStr)
    (space : Space) : Except Fault (Space × Ptr × Nat) := do
  let csz := data.length
  let size := imageSize I csz bsz argv
  let (space, tvirt) ← allocVirt E size space
  let (space, code) ← allocate E tvirt size true space
  let (space, _) ← swapin code 3 space
  let space ← storeBytes tvirt (data ++ List.replicate bsz 0 ++ I.preamble) space
  let i := align ((tvirt + csz + bsz + I.preamble.length) % wordSize) 8
  let (space, top) ← storeArgs tvirt i ((i + argv.length * 8) % wordSize) argv space
  if wsub top tvirt ≠ size then .error .assertion
  else do
    let space ← swapout code space
    .ok (freeVirt tvirt size (shiftRgn code uspaceBot space), code,
      (wsub i tvirt + uspaceBot) % wordSize)

/-- `uspawn` in its parts. -/
theorem uspawn_eq (data : List UInt8) (bsz entry : Nat) (argv : List CStr) (s : State) :
    uspawn E I data bsz entry argv s = (do
      let (s, p) := createProcess E s
      let (space, code, argvt) ← loadCode E I data bsz argv s.space
      let s ← addProcess p ({ s with space := space }.modifyProc p fun v => { v with code := code })
      let (s, _) ← schedule E I p (data.length + bsz + uspaceBot) [entry, argvt, argv.length]
        false s
      .ok (s, p)) := by
  unfold uspawn loadCode
  simp only [bind_assoc]
  refine bind_congr fun ⟨space, tvirt⟩ => ?_
  dsimp only
  refine bind_congr fun ⟨space, code⟩ => ?_
  dsimp only
  refine bind_congr fun ⟨space, _⟩ => ?_
  dsimp only
  refine bind_congr ?_
  intro space
  refine bind_congr fun ⟨space, top⟩ => ?_
  dsimp only
  split
  · rfl
  · simp only [bind_assoc]
    refine bind_congr ?_
    intro space
    rfl

-- ---------------------------------------------------------------------------
-- A region at a temporary place
-- ---------------------------------------------------------------------------

/-- Regions that are swapped in begin below the high half. -/
def Low (s : Space) : Prop := ∀ y ∈ s.swapped, (s.rgn y).lower ≤ highHalfBot

/-- A region of the high half is mapped and unmapped again, with stores in between:
below the high half the page map stays as it is. -/
theorem temporary_spec {s : Space} {r : Ptr} (hlow : Low s)
    (hlower : highHalfBot ≤ (s.rgn r).lower)
    (hblocks : ∀ b ∈ (s.rgn r).blocks, b.Whole ∧ highHalfBot ≤ b.virt) :
    ∃ m₁ m₂, swapin r 3 s = .ok ({ s with swapped := r :: s.swapped, map := m₁ }, true) ∧
      (∀ mem, swapout r { s with swapped := r :: s.swapped, map := m₁, mem := mem } =
        .ok { s with map := m₂, mem := mem }) ∧
      (∀ v < highHalfBot, m₂ v = s.map v) ∧
      (∀ b, (s.rgn r).blocks = [b] → ∀ v, b.HasPage v → m₁ v = blockEntry 3 b (v - b.virt)) := by
  have hwhole : ∀ b ∈ (s.rgn r).blocks, b.Whole := fun b hb => (hblocks b hb).1
  have hout : ∀ entry map, ∀ v < highHalfBot,
      mapBlocks entry (s.rgn r).blocks map v = map v := by
    intro entry map v hv
    refine mapBlocks_outside ?_
    intro b hb ⟨hle, _⟩
    have hhigh := (hblocks b hb).2
    omega
  refine ⟨mapBlocks (blockEntry 3) (s.rgn r).blocks s.map, mapBlocks (fun _ _ => 0)
    (s.rgn r).blocks (mapBlocks (blockEntry 3) (s.rgn r).blocks s.map),
    swapin_spec 3 (fun y hy => ?_) hwhole, fun mem => ?_, fun v hv => ?_, ?_⟩
  · have hy := hlow y hy
    refine Bool.eq_false_iff.mpr ?_
    intro hover
    rw [overlap, decide_eq_true_iff] at hover
    omega
  · refine (swapout_spec (s := { s with
      swapped := r :: s.swapped
      map := mapBlocks (blockEntry 3) (s.rgn r).blocks s.map
      mem := mem }) List.mem_cons_self hwhole).trans ?_
    rw [List.erase_cons_head]
  · rw [hout _ _ v hv, hout _ _ v hv]
  · intro b hb v hv
    rw [hb]
    exact mapBlocks_inside (List.pairwise_singleton _ _) List.mem_cons_self hv

/-- The block of a region, if it has one. -/
def oneBlock (virt phys n : Nat) : List Block := if 0 < n then [⟨virt, phys, n⟩] else []

/-- A region was loaded: it is new, is at its own place with fresh frames, and
nothing else below the high half has changed. -/
structure Loaded (E : Env) (s s' : Space) (r virt n : Nat) (growup : Bool) (phys : Nat) : Prop where
  ptr     : r = E.kalloc.pick s.used
  pick    : E.phys.pick n s.frames = some phys
  used    : s'.used = r :: s.used
  rgn     : s'.rgn = Function.update s.rgn r
    ⟨virt, n, oneBlock (if growup then virt else virt - n) phys n, growup⟩
  swapped : s'.swapped = s.swapped
  low     : ∀ v < highHalfBot, s'.map v = s.map v
  frames  : s'.frames = pageRange phys n ++ s.frames
  refused : s'.refused = s.refused
  mem     : ∀ a, a < phys ∨ phys + n ≤ a → s'.mem a = s.mem a

/-- Moving a region from its temporary place to its own one. -/
theorem loaded_of {s : Space} {r gv virt n tvirt phys k : Nat} {growup : Bool}
    {bs : List Block} {m : Nat → Nat} {mem : Memory} {vp : List Nat}
    (hr : r = E.kalloc.pick s.used) (hbs : E.block tvirt n s phys bs)
    (hmap : ∀ v < highHalfBot, m v = s.map v)
    (hmem : ∀ a, a < phys ∨ phys + n ≤ a → mem a = s.mem a)
    (hshift : wsub tvirt (wsub gv virt) = if growup then virt else virt - n) :
    Loaded E s (freeVirt tvirt k (shiftRgn r virt { s with
      used := r :: s.used
      frames := pageRange phys n ++ s.frames
      rgn := Function.update s.rgn r ⟨gv, n, bs, growup⟩
      map := m
      mem := mem
      vpages := vp })) r virt n growup phys := by
  refine ⟨hr, hbs.1, rfl, ?_, rfl, hmap, rfl, rfl, hmem⟩
  show Function.update (Function.update s.rgn r _) r _ = _
  rw [Function.update_idem]
  dsimp only
  rw [Function.update_self]
  refine congrArg (Function.update s.rgn r) ?_
  have hblocks : bs.map (fun b => { b with virt := wsub b.virt (wsub gv virt) }) =
      oneBlock (if growup then virt else virt - n) phys n := by
    rw [hbs.2, oneBlock]
    split
    · rw [List.map_singleton, hshift]
    · rfl
  exact congrArg (fun l => (⟨virt, n, l, growup⟩ : Region)) hblocks

/-- The words on a new stack. -/
theorem startFrame_length (start : Nat) (extv : List Nat) (kthrd : Bool) :
    ((startFrame I start extv kthrd).flatMap (leBytes 8)).length = 8 * (6 + extv.length) := by
  have hlen : (startFrame I start extv kthrd).length = 6 + extv.length := by
    simp [startFrame]
    omega
  rw [List.length_flatMap, ← hlen]
  simp [Nat.mul_comm]

/-- A new region at a temporary place: it is mapped, stores to it are stores to its
frames, and it is unmapped again. -/
theorem placed_spec {s : Space} {r n tvirt phys : Nat} (gv : Nat) (growup : Bool)
    {bs : List Block} (vp : List Nat) (hlow : Low s) (hnew : r ∉ s.swapped) (hbs : E.block tvirt n s phys bs)
    (hn : n % pageSize = 0) (hpaged : tvirt % pageSize = 0) (hhigh : highHalfBot ≤ tvirt)
    (hfits : tvirt + n ≤ wordSize) (hlower : (⟨gv, n, bs, growup⟩ : Region).lower = tvirt) :
    ∃ (filled : Memory → Space) (m : Nat → Nat),
      swapin r 3 { s with
        used := r :: s.used
        frames := pageRange phys n ++ s.frames
        rgn := Function.update s.rgn r ⟨gv, n, bs, growup⟩
        vpages := vp } = .ok (filled s.mem, true) ∧
      (∀ mem k l, k + l.length ≤ n → storeBytes (tvirt + k) l (filled mem) =
        .ok (filled (mem.blit (phys + k) l))) ∧
      (∀ mem, swapout r (filled mem) = .ok { s with
        used := r :: s.used
        frames := pageRange phys n ++ s.frames
        rgn := Function.update s.rgn r ⟨gv, n, bs, growup⟩
        vpages := vp
        map := m
        mem := mem }) ∧
      ∀ v < highHalfBot, m v = s.map v := by
  have hwhole : ∀ b ∈ bs, b.Whole := by
    intro b hb
    obtain ⟨rfl, _⟩ := hbs.frame hb
    exact ⟨hpaged, E.phys.paged hbs.1, hn, hfits, E.phys.fits hbs.1⟩
  obtain ⟨m₁, m₂, hin, hout, hmap, hshown⟩ := temporary_spec (r := r) (s := { s with
      used := r :: s.used
      frames := pageRange phys n ++ s.frames
      rgn := Function.update s.rgn r ⟨gv, n, bs, growup⟩
      vpages := vp })
    (by
      intro y hy
      have hne : y ≠ r := fun heq => hnew (heq ▸ hy)
      show ((Function.update s.rgn r _) y).lower ≤ _
      rw [Function.update_of_ne hne]
      exact hlow y hy)
    (by
      show _ ≤ ((Function.update s.rgn r _) r).lower
      rw [Function.update_self, hlower]
      exact hhigh)
    (by
      intro b hb
      have hmem : b ∈ ((Function.update s.rgn r ⟨gv, n, bs, growup⟩) r).blocks := hb
      rw [Function.update_self] at hmem
      refine ⟨hwhole b hmem, ?_⟩
      rw [(hbs.frame hmem).1]
      exact hhigh)
  refine ⟨fun mem => { s with
      used := r :: s.used
      frames := pageRange phys n ++ s.frames
      rgn := Function.update s.rgn r ⟨gv, n, bs, growup⟩
      vpages := vp
      swapped := r :: s.swapped
      map := m₁
      mem := mem }, m₂, hin, fun mem k l hk => ?_, hout, hmap⟩
  rcases Nat.eq_zero_or_pos n with hzero | hpos
  · -- there is nothing to store to, and nothing to store
    have hnil : l = [] := List.eq_nil_of_length_eq_zero (by omega)
    rw [hnil, Memory.blit_nil]
    rfl
  · have hone : bs = [⟨tvirt, phys, n⟩] := by
      rw [hbs.2, if_pos hpos]
    refine storeBytes_spec 3 (by decide) (by decide)
      (hwhole ⟨tvirt, phys, n⟩ (hone ▸ List.mem_cons_self)) (E.wide hbs.1) l (hshown _ ?_) hk
    show ((Function.update s.rgn r _) r).blocks = _
    rw [Function.update_self]
    exact hone

/-- `loadStack` makes a stack of one block, with the words on its end. -/
theorem loadStack_spec {start : Nat} {extv : List Nat} (hextv : extv.length ≤ 100) (kthrd : Bool)
    {s : Space} (hlow : Low s) (hnew : E.kalloc.pick s.used ∉ s.swapped) :
    Returns (loadStack E I start extv kthrd s) fun x =>
      ∃ phys, Loaded E s x.1 x.2 lowHalfTop (2 * pageSize) false phys ∧
        x.1.mem = s.mem.blit (phys + (pageSize - 8 * (6 + extv.length)))
          ((startFrame I start extv kthrd).flatMap (leBytes 8)) := by
  unfold loadStack
  refine returns_bind (allocVirt_spec (2 * pageSize) s) ?_
  intro ⟨s₀, tvirt⟩ ⟨⟨vp, hs₀⟩, hpaged, hhigh, hfits⟩
  dsimp only at hs₀ hpaged hhigh hfits ⊢
  subst hs₀
  refine returns_bind (allocate_spec (n := 2 * pageSize) (by decide) (by decide) _ false _) ?_
  intro ⟨s₁, r⟩ ⟨hr, phys, bs, hbs, hs₁⟩
  dsimp only at hr hbs hs₁ ⊢
  have hbase : wsub ((tvirt + 2 * pageSize) % wordSize) (2 * pageSize) = tvirt := by
    unfold wsub wordSize pageSize highHalfBot at *
    omega
  rw [if_neg (by simp), hbase] at hbs
  rw [← hr] at hs₁ hnew
  obtain ⟨filled, m, hin, hstore, hout, hmap⟩ := placed_spec (s := s) (r := r)
    ((tvirt + 2 * pageSize) % wordSize) false vp hlow hnew hbs (by decide) hpaged
    hhigh hfits (by rw [Region.lower, if_neg (by simp), hbase])
  have hplace : tvirt + pageSize - 8 * (6 + extv.length) =
      tvirt + (pageSize - 8 * (6 + extv.length)) := by
    unfold pageSize
    omega
  rw [hs₁, hin, ok_bind]
  dsimp only
  rw [hplace, hstore _ _ _ (by rw [startFrame_length]; unfold pageSize; omega), ok_bind, hout,
    ok_bind]
  refine ⟨phys, loaded_of hr hbs hmap (fun a ha => ?_) ?_, rfl⟩
  · refine Memory.blit_outside ?_
    rw [startFrame_length]
    unfold pageSize at *
    omega
  · rw [if_neg (by simp)]
    unfold wsub wordSize pageSize lowHalfTop highHalfBot at *
    omega

-- ---------------------------------------------------------------------------
-- The image of a process
-- ---------------------------------------------------------------------------

/-- The bytes of the arguments, with their terminators. -/
def argsSize (argv : List CStr) : Nat := (argv.map fun a => a.chars.length + 1).sum

/-- One argument more. -/
theorem argsSize_cons (a : CStr) (argv : List CStr) :
    argsSize (a :: argv) = a.chars.length + 1 + argsSize argv := by
  rw [argsSize, List.map_cons, List.sum_cons, argsSize]

/-- Memory after the loop that copies the arguments, where the array is at `ka` and
the texts at `ki` behind `phys`. -/
def placeArgs (phys : Nat) : Nat → Nat → List CStr → Memory → Memory
  | _, _, [], mem => mem
  | ka, ki, a :: argv, mem =>
    placeArgs phys (ka + 8) (ki + (a.chars.length + 1)) argv
      ((mem.blit (phys + ka) (leBytes 8 (ki + uspaceBot))).blit (phys + ki) (a.chars ++ [0]))

/-- A difference that wraps comes back. -/
theorem wsub_mod_add {a k : Nat} (ha : a ≤ wordSize) (hk : k < wordSize) :
    wsub ((a + k) % wordSize) a = k := by
  unfold wsub wordSize at *
  omega

/-- `storeArgs` stores the characters of each argument and a pointer to them. -/
theorem storeArgs_spec {tvirt phys n : Nat} {filled : Memory → Space}
    (hstore : ∀ mem k l, k + l.length ≤ n → storeBytes (tvirt + k) l (filled mem) =
      .ok (filled (mem.blit (phys + k) l)))
    (hfits : tvirt + n ≤ wordSize) (hsmall : n + uspaceBot < wordSize) :
    ∀ (argv : List CStr) (ka ki : Nat) (mem : Memory), ka + argv.length * 8 ≤ ki →
      ki + argsSize argv ≤ n →
      storeArgs tvirt (tvirt + ka) ((tvirt + ki) % wordSize) argv (filled mem) =
        .ok (filled (placeArgs phys ka ki argv mem), (tvirt + (ki + argsSize argv)) % wordSize)
  | [], ka, ki, mem, _, _ => rfl
  | a :: argv, ka, ki, mem, hka, hki => by
    rw [List.length_cons] at hka
    rw [argsSize_cons] at hki ⊢
    have hin : (tvirt + ki) % wordSize = tvirt + ki := Nat.mod_eq_of_lt (by omega)
    have hback : (wsub ((tvirt + ki) % wordSize) tvirt + uspaceBot) % wordSize =
        ki + uspaceBot := by
      rw [wsub_mod_add (by omega) (by omega), Nat.mod_eq_of_lt (by omega)]
    have hlen : (a.chars ++ [0]).length = a.chars.length + 1 := by simp
    rw [storeArgs, hback, hin, hstore _ _ _ (by rw [leBytes_length]; omega), ok_bind,
      hstore _ _ _ (by rw [hlen]; omega), ok_bind, Nat.add_assoc, Nat.add_assoc,
      storeArgs_spec hstore hfits hsmall argv _ _ _ (by omega) (by omega), placeArgs,
      Nat.add_assoc ki]

/-- The loop writes the array and the texts. -/
theorem placeArgs_outside {phys : Nat} :
    ∀ (argv : List CStr) (ka ki : Nat) (mem : Memory) (a : Nat),
      a < phys + ka ∨ phys + (ka + argv.length * 8) ≤ a →
      a < phys + ki ∨ phys + (ki + argsSize argv) ≤ a →
      placeArgs phys ka ki argv mem a = mem a
  | [], _, _, _, _, _, _ => rfl
  | c :: argv, ka, ki, mem, a, hka, hki => by
    rw [List.length_cons] at hka
    rw [argsSize_cons] at hki
    have hlen : (c.chars ++ [0]).length = c.chars.length + 1 := by simp
    rw [placeArgs, placeArgs_outside argv _ _ _ a (by omega) (by omega),
      Memory.blit_outside (by rw [hlen]; omega), Memory.blit_outside (by rw [leBytes_length]; omega)]

/-- Where the array of arguments is in the image: behind code, zeros and preamble. -/
def argvOffset (I : Image) (csz bsz : Nat) : Nat := (csz + bsz + I.preamble.length + 7) / 8 * 8

/-- The size of an image, as a number. -/
def wholeSize (I : Image) (csz bsz : Nat) (argv : List CStr) : Nat :=
  argvOffset I csz bsz + argv.length * 8 + argsSize argv

/-- The size of the image does not wrap. -/
theorem imageSize_eq {csz bsz : Nat} {argv : List CStr}
    (h : wholeSize I csz bsz argv < wordSize) :
    imageSize I csz bsz argv = wholeSize I csz bsz argv := by
  have hcode : align ((csz + bsz + I.preamble.length) % wordSize) 8 = argvOffset I csz bsz := by
    unfold wholeSize argvOffset align wordSize at *
    split <;> omega
  show (align _ 8 + argv.length * 8 + argsSize argv) % wordSize = _
  rw [hcode]
  exact Nat.mod_eq_of_lt h

/-- Memory with an image in the frames from `phys` on. -/
def imageMem (I : Image) (data : List UInt8) (bsz : Nat) (argv : List CStr) (phys : Nat)
    (mem : Memory) : Memory :=
  placeArgs phys (argvOffset I data.length bsz) (argvOffset I data.length bsz + argv.length * 8)
    argv (mem.blit phys (data ++ List.replicate bsz 0 ++ I.preamble))

/-- The image has the code, the bss and the preamble. -/
theorem image_length (data : List UInt8) (bsz : Nat) :
    (data ++ List.replicate bsz 0 ++ I.preamble).length =
      data.length + bsz + I.preamble.length := by
  simp [Nat.add_assoc]

/-- `loadCode` makes a region of one block, with the image and the arguments in it. -/
theorem loadCode_spec {data : List UInt8} {bsz : Nat} {argv : List CStr}
    (hsize : wholeSize I data.length bsz argv < wordSize) {s : Space} (hlow : Low s)
    (hnew : E.kalloc.pick s.used ∉ s.swapped) :
    Returns (loadCode E I data bsz argv s) fun x =>
      ∃ phys n, n = align (wholeSize I data.length bsz argv) pageSize ∧ n % pageSize = 0 ∧
        wholeSize I data.length bsz argv ≤ n ∧ n + uspaceBot < wordSize ∧
        Loaded E s x.1 x.2.1 uspaceBot n true phys ∧
        x.2.2 = argvOffset I data.length bsz + uspaceBot ∧
        x.1.mem = imageMem I data bsz argv phys s.mem := by
  unfold loadCode
  dsimp only
  rw [imageSize_eq hsize]
  refine returns_bind (allocVirt_spec _ s) ?_
  intro ⟨s₀, tvirt⟩ ⟨⟨vp, hs₀⟩, hpaged, hhigh, hfits⟩
  dsimp only at hs₀ hpaged hhigh hfits ⊢
  subst hs₀
  obtain ⟨n, hn⟩ : ∃ n, n = align (wholeSize I data.length bsz argv) pageSize := ⟨_, rfl⟩
  obtain ⟨hle, htop, hnpaged⟩ := align_page (x := wholeSize I data.length bsz argv)
    (wordSize - tvirt) (by omega) (by unfold wordSize pageSize at *; omega)
    (by unfold wordSize highHalfBot at *; omega)
  rw [← hn] at hle htop hnpaged
  have htv : tvirt + n ≤ wordSize := by omega
  have hsmall : n + uspaceBot < wordSize := by
    unfold wordSize highHalfBot uspaceBot at *
    omega
  refine returns_bind (allocate_spec hn.symm hnpaged tvirt true _) ?_
  intro ⟨s₁, r⟩ ⟨hr, phys, bs, hbs, hs₁⟩
  dsimp only at hr hbs hs₁ ⊢
  rw [if_pos rfl] at hbs
  rw [← hr] at hs₁ hnew
  obtain ⟨filled, m, hin, hstore, hout, hmap⟩ := placed_spec (s := s) (r := r)
    tvirt true vp hlow hnew hbs hnpaged hpaged hhigh htv
    (by rw [Region.lower, if_pos rfl])
  have hoff : argvOffset I data.length bsz + argv.length * 8 + argsSize argv ≤ n := hle
  have hi : align ((tvirt + data.length + bsz + I.preamble.length) % wordSize) 8 =
      (tvirt + argvOffset I data.length bsz) % wordSize := by
    unfold argvOffset align wordSize pageSize at *
    split <;> omega
  have hbytes := hstore s.mem 0 (data ++ List.replicate bsz 0 ++ I.preamble)
    (by rw [image_length]; unfold argvOffset at hoff; omega)
  rw [Nat.add_zero, Nat.add_zero] at hbytes
  have hargs := storeArgs_spec hstore htv hsmall argv (argvOffset I data.length bsz)
    (argvOffset I data.length bsz + argv.length * 8)
    (s.mem.blit phys (data ++ List.replicate bsz 0 ++ I.preamble)) le_rfl hoff
  -- with no arguments the array is empty and may be at the end of all addresses
  have hstart : storeArgs tvirt ((tvirt + argvOffset I data.length bsz) % wordSize)
      (((tvirt + argvOffset I data.length bsz) % wordSize + argv.length * 8) % wordSize) argv
      (filled (s.mem.blit phys (data ++ List.replicate bsz 0 ++ I.preamble))) =
      .ok (filled (imageMem I data bsz argv phys s.mem),
        (tvirt + wholeSize I data.length bsz argv) % wordSize) := by
    rw [Nat.mod_add_mod, Nat.add_assoc]
    cases argv with
    | nil => exact hargs
    | cons a argv =>
      rw [argsSize_cons, List.length_cons] at hoff
      rw [Nat.mod_eq_of_lt (show tvirt + argvOffset I data.length bsz < wordSize by omega)]
      exact hargs
  rw [hs₁, hin, ok_bind]
  dsimp only
  rw [hbytes, ok_bind, hi, hstart, ok_bind]
  dsimp only
  rw [wsub_mod_add (by omega) hsize, if_neg (fun hne => hne rfl), hout, ok_bind]
  refine ⟨phys, n, hn, hnpaged, hle, hsmall, ?_, ?_, rfl⟩
  · refine loaded_of hr hbs hmap (fun a ha => ?_) ?_
    · rw [imageMem, placeArgs_outside _ _ _ _ _ (by omega) (by omega),
        Memory.blit_outside (by rw [image_length]; unfold argvOffset at *; omega)]
    · rw [if_pos rfl]
      unfold wsub wordSize uspaceBot highHalfBot at *
      omega
  · show (wsub _ tvirt + uspaceBot) % wordSize = _
    rw [wsub_mod_add (by omega) (by omega), Nat.mod_eq_of_lt (by omega)]

end Frosk.Scheduler
