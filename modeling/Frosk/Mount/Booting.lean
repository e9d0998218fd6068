import Mathlib.Tactic
import Frosk.Builder.Descriptions
import Frosk.Builder.Main
import Frosk.Mount.Loader
import Frosk.Paging.Exact

/-!
# Images in the kernel: booting

What the boot loader starts from the image that `fsb` writes for a text, with the boot loader
before it.

Main result: `boots_described`. It is the kernel of the text, on a file system that is as the text
says. There is an error instead only for what the error says: the BIOS fails, or has no memory map,
graphics mode or long mode, or the text has no kernel.
-/

namespace Frosk.Mount

open Lib Fs
open Builder (Fsd Host Image)

-- ---------------------------------------------------------------------------
-- The packet for the kernel
-- ---------------------------------------------------------------------------

section Packets

variable {L : Loader} {B : Bios} {M D : Memory} {m : Machine}

/-- The sectors of a file are not less than the file, and not more than there have to be. -/
theorem kernelSectors_spec {size limit : Nat} (h : size ≤ limit * sectorSize) :
    size ≤ kernelSectors size * sectorSize ∧ kernelSectors size ≤ limit := by
  have hmask : size % 0x10000 &&& 0x1ff = size % 0x200 := by
    rw [show 0x1ff = 2 ^ 9 - 1 by decide, Nat.and_two_pow_sub_one_eq_mod]
    exact Nat.mod_mod_of_dvd size (by decide)
  have hshift : size >>> 9 = size / 0x200 := Nat.shiftRight_eq_div_pow ..
  unfold sectorSize at *
  rw [kernelSectors, hmask, hshift]
  constructor
  · clear h
    split <;> omega
  · rw [Nat.mul_comm] at h
    split <;> omega

/-- Filling the packet for the kernel leaves the loader. -/
theorem same_kernelDap (L : Loader) (bx : Nat) (m : Machine) : L.Same m.mem (kernelDap L bx m).mem :=
  (((same_dap (by decide)).trans (same_leftPut (by decide) (by decide))).trans
    (same_dap (by decide))).trans ((same_dap (by decide)).trans (same_setDest L _ _ _))

/-- The packet reads the file of a node, if the block is not above the last that it can name. -/
theorem kernelDap_spec {H : Host} {x p : Nat} {actual : CStr} {bytes : List UInt8} {limit : Nat}
    (hx : Inner x) (hdata : commonData m.mem (addr x) = p) (hfile : FileNode H m.mem D p actual bytes)
    (hsize : bytes.length ≤ limit * sectorSize) (hlimit : limit < 0x10000) :
    (kernelDap L (addr x) m).dap.count = kernelSectors bytes.length ∧
      (blockLba m.mem (addr p) < 2 ^ 29 →
        (kernelDap L (addr x) m).dap.lba = blockLba m.mem (addr p) * 8) := by
  have hxlow := addr_le hx
  have hplow := addr_le hfile.inner
  have hdap := L.dapIn.1
  have hsi : deref (m.mem.get 4 ((addr x + 0x10) % 0x10000)) = addr p := by
    rw [Nat.mod_eq_of_lt (by omega), show m.mem.get 4 (addr x + 0x10) = p from hdata, deref_inner hfile.inner]
  have hfield : ∀ i, i ≤ 0x10 → (addr p + i) % 0x10000 = addr p + i := fun i hi => Nat.mod_eq_of_lt (by omega)
  have hlow : ∀ a v, m.mem.get 8 a = v → v < 0x100000000 → m.mem.get 4 a = v ∧ m.mem.get 4 (a + 4) = 0 := by
    intro a v hv hlt
    have hadd : m.mem.get 8 a = m.mem.get 4 a + 256 ^ 4 * m.mem.get 4 (a + 4) :=
      Memory.get_add (n := 4) (k := 4)
    omega
  -- the node is not where the boot loader stores to
  have hnode : ∀ {M' : Memory}, L.Same m.mem M' → ∀ i, i ≤ 0x10 → M'.get 4 (addr p + i) =
      m.mem.get 4 (addr p + i) := by
    intro M' hsame i hi
    have herror := L.errorIn.1
    refine Memory.get_congr fun j hj => hsame _ ?_
    unfold bootLoc at hdap herror
    rintro (⟨hleft, -⟩ | ⟨hleft, -⟩ | ⟨hleft, -⟩)
    · unfold Leftovers.partitionDs at hleft
      omega
    · omega
    · omega
  obtain ⟨hsize4, -⟩ := hlow _ _ hfile.size (by unfold sectorSize at hsize; omega)
  have hcount : kernelSectors (m.mem.get 4 (addr p + 0x10)) % 0x10000 = kernelSectors bytes.length := by
    rw [hsize4]
    exact Nat.mod_eq_of_lt ((kernelSectors_spec hsize).2.trans_lt hlimit)
  constructor
  · rw [← hcount, ← hfield 0x10 le_rfl, ← hsi]
    rfl
  · intro hlba
    obtain ⟨hlba4, hlba0⟩ := hlow (addr p + 8) (blockLba m.mem (addr p)) rfl (by omega)
    let count := kernelSectors (m.mem.get 4 (addr p + 0x10)) % 0x10000
    let m₁ := (m.setCount L count).put 2 Leftovers.kernelSize count
    have hsame : L.Same m.mem m₁.mem := (same_dap (by decide)).trans (same_leftPut (by decide) (by decide))
    let m₂ := m₁.setLow L (m₁.mem.get 4 (addr p + 8) <<< 3 % 0x100000000)
    have hsame₂ : L.Same m.mem m₂.mem := hsame.trans (same_dap (by decide))
    have hparts : (kernelDap L (addr x) m).dap.lba =
        m₁.mem.get 4 (addr p + 8) <<< 3 % 0x100000000 + 0x100000000 * m₂.mem.get 4 (addr p + 12) := by
      simp only [kernelDap, hsi, hfield 8 (by decide), hfield 12 (by decide), hfield 0x10 le_rfl]
      rfl
    rw [hparts, hnode hsame 8 (by decide), hnode hsame₂ 12 (by decide), hlba4, hlba0, Nat.shiftLeft_eq]
    omega

/-- The tables are all that is written before the kernel runs. -/
theorem bootTables_outside (m : Memory) {a : Nat} (h : a < Paging.pmL4Loc ∨ Paging.pgSwpLoc ≤ a) :
    Paging.bootTables m a = m a := by
  have hput : ∀ (m : Memory) b v, Paging.pmL4Loc ≤ b → b + 4 ≤ Paging.pgSwpLoc → m.put 4 b v a = m a := by
    intro m b v hlo hhi
    exact Memory.blit_outside (by rw [leBytes_length]; omega)
  have hloop : ∀ n ≤ 512, ∀ m : Memory, (List.range n).foldl Paging.bootEntry m a = m a := by
    intro n hn m
    induction n with
    | zero => rfl
    | succ n ih =>
      rw [List.range_succ, List.foldl_append, List.foldl_cons, List.foldl_nil, Paging.bootEntry,
        hput _ _ _ (by unfold Paging.pmL4Loc Paging.pmL1Loc; omega)
          (by unfold Paging.pmL1Loc Paging.pgSwpLoc; omega)]
      exact ih (Nat.le_of_succ_le hn)
  rw [Paging.bootTables, hloop 512 le_rfl, hput _ _ _ (by decide) (by decide),
    hput _ _ _ (by decide) (by decide),
    hput _ _ _ (by decide) (by decide)]
  refine Memory.blit_outside ?_
  rw [List.length_replicate]
  unfold Paging.pmL4Loc Paging.pgSwpLoc at h
  unfold Paging.pmL4Loc
  omega

/-- Everything below two megabytes is mapped to itself. -/
theorem translate_boot (m : Memory) {a : Nat} (ha : a < 0x200000) :
    Paging.translate (Paging.bootTables m) a = some a := by
  have hsound := Paging.sound_boot m []
  have hpage : a / pageSize < 512 := by
    unfold pageSize
    omega
  have hentry :
      (Paging.bootTables m).get 8 (Paging.pmL1Loc + 8 * (a / pageSize)) = a / pageSize * pageSize + 3 := by
    have h := Paging.bootTables_entry m (t := 5) (by decide) le_rfl ⟨a / pageSize, hpage⟩
    rwa [if_pos rfl] at h
  have hodd : (a / pageSize * pageSize + 3) % 2 = 1 := by
    unfold pageSize
    omega
  rw [Paging.translate, Paging.walk_low hsound.boot ha, hentry, Paging.entryFrame, if_pos hodd,
    Option.map_some]
  refine congrArg some ?_
  unfold pageSize at *
  omega

end Packets

-- ---------------------------------------------------------------------------
-- The kernel of an image
-- ---------------------------------------------------------------------------

section Kernel

variable {H : Host} {fsd : Fsd} {M D : Memory} {r : CStr × Kind}

/-- The search of `load_kernel`, where the description is. -/
theorem loadKernel_spec (h : Ready H M D fsd) (hne : rows fsd ≠ []) :
    ((rows fsd).reverse.find? taken = none → Settles (loadKernel M) none) ∧
    ∀ r, (rows fsd).reverse.find? taken = some r → ∃ q, Settles (loadKernel M) (some (addr q)) ∧
      RowNode H M D q r := by
  have hrows : RowNodes H M D (commonData M (addr (headerRoot M rfsmbLoc))) ((rows fsd).reverse ++ []) :=
    h.stored.rowNodes rfl
  rw [List.append_nil] at hrows
  have hload : loadKernel M =
      fun k => iterate (searchLoop M) k (commonData M (addr (headerRoot M rfsmbLoc))) := by
    funext k
    have hlow := addr_le h.root
    have hroot : deref (M.get 4 (rfsmbLoc + 0x10)) = addr (headerRoot M rfsmbLoc) := deref_inner h.root
    rw [loadKernel, hroot,
      Nat.mod_eq_of_lt (show addr (headerRoot M rfsmbLoc) + 0x10 < 0x10000 by omega)]
    rfl
  obtain ⟨hnone, hsome⟩ := search_spec hrows (by simpa using hne)
  rw [hload]
  refine ⟨fun hfind => settles_of_exits (hnone hfind), fun r hfind => ?_⟩
  obtain ⟨q, hexits, -, hrow⟩ := hsome r hfind
  exact ⟨q, settles_of_exits hexits, hrow⟩

/-- A description with a name that is taken is not empty. -/
theorem rows_ne_nil (h : (rows fsd).reverse.find? taken = some r) : rows fsd ≠ [] := by
  intro hnil
  rw [hnil] at h
  cases h

/-- What is behind the image makes no difference, so the kernel is not there. -/
theorem kernel_within {name actual : CStr} {bytes : List UInt8} {last q : Nat}
    (hready : ∀ D', (∀ a < last, D' a = D a) → Ready H M D' fsd)
    (hfind : (rows fsd).reverse.find? taken = some (name, .file actual))
    (hrun : Settles (loadKernel M) (some (addr q)))
    (hfile : FileNode H M D (commonData M (addr q)) actual bytes) (hne : bytes ≠ []) :
    blockLba M (addr (commonData M (addr q))) * 0x1000 < last := by
  by_contra hle
  -- a disk that is another one behind the image
  obtain ⟨D', hD'⟩ : ∃ D' : Memory, ∀ a, D' a = if a < last then D a else D a + 1 := ⟨_, fun _ => rfl⟩
  obtain ⟨q', hrun', hrow⟩ := (loadKernel_spec (hready D' fun a ha => (hD' a).trans (if_pos ha))
    (rows_ne_nil hfind)).2 _ hfind
  obtain rfl : q = q' := by
    have haddr := Option.some.inj (hrun.unique hrun')
    unfold addr at haddr
    omega
  obtain ⟨bytes', hfile'⟩ : ∃ bytes', FileNode H M D' (commonData M (addr q)) actual bytes' := hrow.leads
  obtain rfl : bytes' = bytes := Option.some.inj (hfile'.file.symm.trans hfile.file)
  have hpos := List.length_pos_iff.mpr hne
  have hfirst := congrArg (·[0]?) (hfile'.disk.trans hfile.disk.symm)
  simp only [Memory.slice_getElem? hpos, Option.some.injEq, Nat.add_zero] at hfirst
  rw [hD', if_neg hle] at hfirst
  exact absurd hfirst (by simp)

end Kernel

/-- The memory when the kernel starts: the boot loader, but for what it stores to itself, the kernel,
both where they are mapped to, and the first metadata block of a file system that is as the
description says. -/
structure Running (H : Host) (fsd : Fsd) (D : Memory) (L : Loader) (kernel : List UInt8) (M : Memory) :
    Prop where
  loader : L.Intact M
  kernel : M.slice kernelLoc kernel.length = kernel
  mapped : ∀ a < 0x200000, Paging.translate M a = some a
  files  : ∀ (E : Env) (t : State), E.disk = D → Loaded t.mem M → t.rootDev = true →
    ∃ t', setupFs E t = some t' ∧ ∀ paths : List (List CStr),
      Along (Step E) (fun _ path _ a => a = answer H fsd path) t' paths

/-- What is known of a disk: the boot loader, and an image of the description behind it. -/
structure Disk (H : Host) (fsd : Fsd) (loader : List UInt8) (D : Memory) : Prop where
  loader : D.slice 0 0x1000 = loader
  mark   : D.slice 0x1000 8 = Builder.froskFsMark
  ready  : ∀ D' M, (∀ a, 0x1000 ≤ a → a < 2 ^ 29 * 0x1000 → D' a = D a) → Loaded M D' → Ready H M D' fsd

/-- Where a description is in memory and on the disk, the kernel answers as it says. -/
theorem answers_of_ready {H : Host} {fsd : Fsd} {E : Env} {t : State} (hready : Ready H t.mem E.disk fsd)
    (hdev : t.rootDev = true) (hdistinct : Distinct fsd) :
    ∃ t', setupFs E t = some t' ∧ ∀ paths : List (List CStr),
      Along (Step E) (fun _ path _ a => a = answer H fsd path) t' paths := by
  let S : Source := ⟨H, fsd, t.mem, E.disk⟩
  obtain ⟨t', F, kind, hsetup, hshows, -⟩ := setup_shows (S := S) hready rfl hdev hdistinct E
  refine ⟨t', hsetup, ?_⟩
  intro paths
  have hstep : ∀ u path, (∃ F kind, Shows S u F kind fun _ => []) → True → ∃ u' a, Step E u path u' a ∧
      a = answer H fsd path ∧ ∃ F kind, Shows S u' F kind fun _ => [] := by
    rintro u path ⟨F, kind, hinv⟩ -
    obtain ⟨u', F', kind', ⟨n, hn⟩, hshows'⟩ := query_shows hinv rfl hready.page path
    exact ⟨u', _, ⟨n, hn n le_rfl⟩, rfl, F', kind', hshows'⟩
  exact along_of_invariant hstep ⟨F, kind, hshows⟩ (whenever_of_forall fun _ _ => trivial)

section Boot

variable {H : Host} {fsd : Fsd} {L : Loader} {B : Bios} {missing : Prop} {n : Nat}

/-- What is in memory before the kernel is looked for. -/
theorem boot_comes (hdisk : Disk H fsd L.bytes B.disk) (hmap : B.MapEnds) (M : Memory) {P : Memory → Prop}
    (hrest : ∀ m, L.Intact m.mem ∧ Loaded m.mem B.disk →
      Comes (B.Fails missing n) (fun m => ∀ M, L.Same m.mem M → P (Paging.bootTables M))
        fun k => findKernel L B k m) :
    Comes (B.Fails missing n) P fun k => boot L B k M := by
  refine Comes.andThen ((firstStage_ends hdisk.loader M).bind fun m hm => checkDrive_ends hm).comes
    fun m hm => ?_
  refine (detectMemory_comes hmap hm).andThen ?_
  intro m hm
  refine (loadFs_ends hm hdisk.mark).comes.andThen ?_
  intro m hm
  refine (hrest m hm).andThen ?_
  intro m hm
  exact ((initGraphics_ends L B m).imp fun m' hsame => hm m'.mem hsame).map.comes

/-- The read of the kernel, from its node on. -/
theorem readKernel_ends (hdisk : Disk H fsd L.bytes B.disk) {m : Machine} (hintact : L.Intact m.mem)
    (hloaded : Loaded m.mem B.disk) (hdistinct : Distinct fsd) {name actual : CStr}
    {bytes : List UInt8} {q : Nat}
    (hfind : (rows fsd).reverse.find? taken = some (name, .file actual))
    (hrun : Settles (loadKernel m.mem) (some (addr q))) (hq : Inner q)
    (hfile : FileNode H m.mem B.disk (commonData m.mem (addr q)) actual bytes)
    (hsize : bytes.length ≤ 0xFFFF * sectorSize) :
    Ends (B.Fails missing (kernelSectors bytes.length))
      (fun m' => ∀ M, L.Same m'.mem M → Running H fsd B.disk L bytes (Paging.bootTables M))
      (readKernel L B (addr q) m) := by
  obtain ⟨hcount, hlba⟩ := kernelDap_spec (L := L) hq rfl hfile hsize (by decide)
  obtain ⟨hlow, -⟩ := kernelSectors_spec hsize
  have hdap := L.dapIn
  have herror := L.errorIn
  unfold bootLoc sectorSize at hdap herror
  obtain ⟨m₁, hm₁⟩ : ∃ m₁, m₁ = (kernelDap L (addr q) m).setError L .cantReadKernel := ⟨_, rfl⟩
  have hsame : L.Same m.mem m₁.mem := by
    rw [hm₁]
    exact (same_kernelDap L (addr q) m).trans (same_setError L _ .cantReadKernel)
  have hplace : m₁.dap.segment * 0x10 + m₁.dap.dest = kernelLoc := by
    rw [hm₁]
    show kernelLoc / 0x10000 * 0x1000 * 0x10 + kernelLoc % 0x10000 = kernelLoc
    decide
  have hcount₁ : m₁.dap.count = kernelSectors bytes.length := by
    rw [hm₁]
    exact hcount
  have hlba₁ : blockLba m.mem (addr (commonData m.mem (addr q))) < 2 ^ 29 →
      m₁.dap.lba = blockLba m.mem (addr (commonData m.mem (addr q))) * 8 := by
    rw [hm₁]
    exact hlba
  have hlabel : m₁.error = .cantReadKernel := by
    rw [hm₁]
    rfl
  have hread := doRead_spec (B := B) (m := m₁) (B.Fails missing (kernelSectors bytes.length)) hcount₁ hplace
    rfl (by rw [hlabel]; exact id)
  rw [readKernel, ← hm₁]
  refine hread.imp ?_
  intro m' hm' M hM
  obtain ⟨hmem, -, -⟩ := hm'
  -- what is below the kernel and not a table is as before
  have hkeep : ∀ a, ¬ L.Scratch a → a < Paging.pmL4Loc ∨ bootLoc ≤ a ∧ a < kernelLoc →
      Paging.bootTables M a = m.mem a := by
    intro a hout ha
    unfold Paging.pmL4Loc bootLoc kernelLoc at ha
    rw [bootTables_outside M (by unfold Paging.pmL4Loc Paging.pgSwpLoc; omega), hM a hout, hmem,
      Memory.blit_outside (.inl (by unfold kernelLoc; omega)), hsame a hout]
  have hblock : ∀ a, a < Paging.pmL4Loc → ¬ L.Scratch a := by
    unfold Paging.pmL4Loc
    rintro a ha (⟨hleft, -⟩ | ⟨hleft, -⟩ | ⟨hleft, -⟩)
    · unfold Leftovers.partitionDs at hleft
      omega
    · omega
    · omega
  have habove : ∀ a, kernelLoc ≤ a → ¬ L.Scratch a := by
    unfold kernelLoc
    rintro a ha (⟨-, hleft⟩ | ⟨-, hleft⟩ | ⟨-, hleft⟩)
    · unfold bootLoc at hleft
      omega
    · omega
    · omega
  refine ⟨fun i hi hout => ?_, ?_, fun a ha => translate_boot _ ha, fun E t hE ht hdev => ?_⟩
  · have hlt : i < 0x1000 := L.length ▸ hi
    rw [hkeep _ hout (.inr (by unfold bootLoc kernelLoc; omega))]
    exact hintact i hi hout
  · have hslice : (Paging.bootTables M).slice kernelLoc bytes.length =
        m'.mem.slice (kernelLoc + 0) bytes.length :=
      Memory.slice_congr fun i _ => by
        rw [bootTables_outside _ (.inr (by unfold Paging.pgSwpLoc kernelLoc; omega))]
        exact hM _ (habove _ (Nat.le_add_right ..))
    rw [hslice, hmem, Memory.slice_blit_within (by rw [Memory.slice_length]; omega), List.drop_zero,
      Memory.slice_take, Nat.min_eq_left hlow]
    by_cases hne : bytes = []
    · subst hne
      rfl
    · have hlast := kernel_within (fun D' hD' => hdisk.ready D' _ (fun a _ hhi => hD' a hhi) fun a hlo hhi =>
          (hloaded a hlo hhi).trans (hD' a (by omega)).symm) hfind hrun hfile hne
      have hblocks : ∀ n, n * 8 * sectorSize = n * 0x1000 := fun n => Nat.mul_assoc n 8 sectorSize
      rw [hlba₁ (by omega), hblocks]
      exact hfile.disk
  · have hloaded' : Loaded t.mem E.disk := fun a hlo hhi => by
      rw [ht a hlo hhi, hkeep a (hblock a hhi) (.inl hhi), hloaded a hlo hhi, hE]
    exact answers_of_ready (hdisk.ready _ _ (fun a _ _ => congrFun hE a) hloaded') hdev hdistinct

/-- Without a kernel there is always an error. -/
theorem boot_noKernel (hdisk : Disk H fsd L.bytes B.disk) (hmap : B.MapEnds) (M : Memory)
    (hne : rows fsd ≠ []) (hfind : (rows fsd).reverse.find? taken = none) :
    Comes (B.Fails True 0) (fun _ => False) fun k => boot L B k M := by
  refine boot_comes hdisk hmap M ?_
  intro m hm
  obtain ⟨n, hn⟩ := (loadKernel_spec (hdisk.ready _ _ (fun _ _ _ => rfl) hm.2) hne).1 hfind
  refine ⟨.error .noKernel, ⟨n, ?_⟩, trivial⟩
  intro k hk
  simp only [findKernel, hn k hk]
  rfl

/-- The loader reads the file it finds to `kernelLoc`. -/
theorem boot_kernel (hdisk : Disk H fsd L.bytes B.disk) (hmap : B.MapEnds) (hdistinct : Distinct fsd)
    (M : Memory) {name actual : CStr} {bytes : List UInt8}
    (hfind : (rows fsd).reverse.find? taken = some (name, .file actual)) (hbytes : H.file actual = some bytes)
    (hsize : bytes.length ≤ 0xFFFF * sectorSize) :
    Comes (B.Fails False (kernelSectors bytes.length)) (Running H fsd B.disk L bytes)
      fun k => boot L B k M := by
  refine boot_comes hdisk hmap M ?_
  intro m hm
  obtain ⟨q, hrun, hrow⟩ :=
    (loadKernel_spec (hdisk.ready _ _ (fun _ _ _ => rfl) hm.2) (rows_ne_nil hfind)).2 _ hfind
  obtain ⟨bytes', hfile⟩ : ∃ bytes', FileNode H m.mem B.disk (commonData m.mem (addr q)) actual bytes' :=
    hrow.leads
  obtain rfl : bytes' = bytes := Option.some.inj (hfile.file.symm.trans hbytes)
  obtain ⟨n, hn⟩ := hrun
  refine ⟨readKernel L B (addr q) m, ⟨n, fun k hk => ?_⟩,
    readKernel_ends hdisk hm.1 hm.2 hdistinct hfind ⟨n, hn⟩ hrow.entry.inner hfile hsize⟩
  simp only [findKernel, hn k hk]

end Boot

-- ---------------------------------------------------------------------------
-- From the text to the kernel
-- ---------------------------------------------------------------------------

/-- A command line and a standard input that describe a tree, for the default sizes: no string has
white space or a mark in it, no directory with entries is inside of another one, no two entries of
a directory have one name, and the nodes fit in the first metadata block. -/
structure Described (H : Host) (argv : List CStr) (stdin : List UInt8) (o : Builder.Text.Options)
    (fsd : Fsd) : Prop where
  options  : Builder.Text.options H argv.tail .default = .run o
  quiet    : o.debug = false
  size     : o.blockSize = 0x1000
  start    : o.startBlock = 1
  text     : Builder.Text.Spells (Builder.Text.tokens fsd) (o.text H stdin)
  clean    : Builder.Text.Clean fsd
  flat     : Builder.Text.Flat fsd
  distinct : Distinct fsd
  short    : Builder.Short (o.rootOwner.toFinset ∪ fsd.strings)
  readable : fsd.Readable H
  room     : 32 + fsd.room + Builder.need (o.rootOwner.toFinset ∪ fsd.strings) ∅ ≤
    Builder.BlockSize.default.room

section Command

variable {H : Host} {argv : List CStr} {stdin : List UInt8} {o : Builder.Text.Options} {fsd : Fsd}

/-- What `fsb` writes, and what `dd` makes of it. -/
theorem main_spec (hdesc : Described H argv stdin o fsd) (hend : 3 + fsd.blocks H ≤ 2 ^ 29) (s : Image) :
    ∃ g, Settles (fun k => Builder.Text.main H k argv stdin s) g ∧
      ∀ loader : List UInt8, loader.length = 0x1000 → Disk H fsd loader (g.bytes.blit 0 loader) := by
  obtain ⟨s', g, ⟨n₁, hparse⟩, ⟨n₂, hwrite⟩, hmark, hready⟩ := image_kept H o.rootPerm o.rootOwner fsd s
    hdesc.short hdesc.readable (by omega) hdesc.room
  refine ⟨g, ⟨max n₁ n₂, ?_⟩, ?_⟩
  · intro k hk
    obtain ⟨line, hline⟩ := (Builder.Text.parseFsd_flat hdesc.clean hdesc.text hdesc.flat H k 0x1000 1
      o.rootPerm o.rootOwner s).2 s' (hparse k (le_of_max_le_left hk))
    have hsize : (o.blockSize % 0x100000000).toNat = 0x1000 := by
      rw [hdesc.size]
      decide
    have hstart : (o.startBlock % wordSize).toNat = 1 := by
      rw [hdesc.start]
      decide
    simp only [Builder.Text.main, hdesc.options, hdesc.quiet, Builder.Text.image, hsize, hstart, hline]
    exact hwrite k (le_of_max_le_right hk)
  · intro loader hlen
    have hbehind : ∀ a, 0x1000 ≤ a → (g.bytes.blit 0 loader) a = g.bytes a :=
      fun a ha => Memory.blit_outside (.inr (by omega))
    refine ⟨?_, ?_, fun D M hD hM => hready D M (fun a hlo hhi => ?_) hM⟩
    · rw [← hlen]
      exact Memory.slice_blit_self
    · rw [← hmark]
      exact Memory.slice_congr fun i _ => hbehind _ (Nat.le_add_right ..)
    · rw [hD a hlo (hhi.trans_le (Nat.mul_le_mul_right _ hend)), hbehind a hlo]

/-- **What is booted**: for every command line that describes a tree, and every disk with the image
that `fsb` writes for it and the boot loader before it, what the boot loader starts is the file of
the last entry whose name begins with `kernel.bin`, on a file system that answers as the tree does,
if the file is not as large as to reach the stack. There is an error instead only if what it is for
fails. Without such an entry there is always one. -/
theorem boots_described (hdesc : Described H argv stdin o fsd) (hend : 3 + fsd.blocks H ≤ 2 ^ 29)
    (s : Image) :
    ∃ g, Settles (fun k => Builder.Text.main H k argv stdin s) g ∧
      ∀ (L : Loader) (B : Bios) (M : Memory), B.disk = g.bytes.blit 0 L.bytes → B.MapEnds →
        (rows fsd ≠ [] → (rows fsd).reverse.find? taken = none →
          Comes (B.Fails True 0) (fun _ => False) fun k => boot L B k M) ∧
        ∀ name actual kernel, (rows fsd).reverse.find? taken = some (name, .file actual) →
          H.file actual = some kernel → kernelLoc + kernel.length ≤ defStackLoc →
          Comes (B.Fails False (kernelSectors kernel.length)) (Running H fsd B.disk L kernel)
            fun k => boot L B k M := by
  obtain ⟨g, hmain, hdisk⟩ := main_spec hdesc hend s
  refine ⟨g, hmain, ?_⟩
  intro L B M hB hmap
  have hdisk' : Disk H fsd L.bytes B.disk := hB ▸ hdisk L.bytes L.length
  refine ⟨boot_noKernel hdisk' hmap M, fun name actual kernel hfind hfile hsize =>
    boot_kernel hdisk' hmap hdesc.distinct M hfind hfile ?_⟩
  unfold kernelLoc defStackLoc at hsize
  unfold sectorSize
  omega

end Command

/-- `default.fsd` -/
def defaultFsd : CStr := ⟨Builder.Text.bytes "default.fsd", by decide⟩

/-- A host with a description, and the files that are named in it. -/
def hostRepo : Host where
  malloc := .above
  file name := if name = defaultFsd then some Builder.Text.programsText else some [0xEB, 0xFE]
  frame _ _ := 0

/-- The command line of the `Makefile`. -/
def makeArgv : List CStr :=
  [⟨Builder.Text.bytes "fsb", by decide⟩, ⟨Builder.Text.bytes "-idefault.fsd", by decide⟩,
    ⟨Builder.Text.bytes "-ofrosk.img", by decide⟩]

/-- A boot loader of zeros. -/
def zeroLoader : Loader where
  bytes    := List.replicate 0x1000 0
  dap      := 0x7D00
  errorStr := 0x7D10
  text _   := 0
  length   := List.length_replicate
  dapIn    := by decide
  errorIn  := by decide

/-- A BIOS of which every other read fails, for a computer with one region of memory. -/
def halfBios (disk : Memory) : Bios where
  si         := 0
  dl         := 0x80
  stack      := 0x200
  extensions := true
  disk       := disk
  limit      := 0x7F
  torn n     := if n % 2 = 0 then some [1] else none
  medium     := (false, [])
  map _      := { carry := false, smap := true, more := false, entry := List.replicate 20 0, size := 20 }
  modeInfo   := (false, [])
  mode       := true
  longMode   := true

/-- This BIOS reads up to 127 sectors at a time. -/
theorem halfBios_reads (disk : Memory) {n : Nat} (h : n ≤ 0x7F) : (halfBios disk).Reads n := by
  refine ⟨fun i => ⟨(i + 1) % 2, by omega, if_neg ?_⟩, h⟩
  omega

/-- Nothing can go wrong there. -/
theorem halfBios_fails (disk : Memory) {n : Nat} (h : n ≤ 0x7F) (e : Error) :
    ¬ (halfBios disk).Fails False n e := by
  cases e with
  | noDiskExt => exact Bool.noConfusion
  | noLoadBoot2 => exact not_not_intro (halfBios_reads disk (by decide))
  | driveCheck => exact Bool.false_ne_true
  | detectMemory =>
    rintro (⟨i, -, hsmap⟩ | hreads)
    · cases hsmap
    · exact hreads (halfBios_reads disk (by decide))
  | noFilesystem => exact id
  | noKernel => exact id
  | cantReadKernel => exact not_not_intro (halfBios_reads disk h)
  | getGrinfo => exact Bool.false_ne_true
  | setGrmode => exact Bool.noConfusion
  | noLongMode => exact Bool.noConfusion

/-- The image that `make` builds boots its kernel. -/
theorem boots_described_make :
    ∃ g M', Settles (fun k => Builder.Text.main hostRepo k makeArgv [] (Builder.State.fresh.image 2)) g ∧
      Settles (fun k => boot zeroLoader (halfBios (g.bytes.blit 0 zeroLoader.bytes)) k fun _ => 0)
        (Except.ok M') ∧ M'.slice kernelLoc 2 = [0xEB, 0xFE] := by
  have hclean : Builder.Text.Clean Builder.Text.programs := by
    refine ⟨Builder.Text.cleanFields_bare (by decide), by decide, Builder.Text.cleanFields_bare (by decide),
      ⟨Builder.Text.cleanFields_bare (by decide), by decide, Builder.Text.cleanFields_bare (by decide),
      by decide, trivial⟩, trivial⟩
  have hflat : Builder.Text.Flat Builder.Text.programs := by
    have hnested : Builder.Text.nested Builder.Text.programs = [.file ⟨Builder.Text.startName, none, none⟩
      Builder.Text.startPath (.file ⟨Builder.Text.testName, none, none⟩ Builder.Text.testPath .done)] := rfl
    rw [Builder.Text.Flat, hnested, List.forall_mem_singleton]
    rfl
  have hdesc : Described hostRepo makeArgv []
      { Builder.Text.Options.default with
        input := some defaultFsd, output := some ⟨Builder.Text.bytes "frosk.img", by decide⟩ }
      Builder.Text.programs :=
    ⟨rfl, rfl, rfl, rfl, Builder.Text.spells_of_check (by decide), hclean, hflat,
      ⟨by decide, by decide, ⟨by decide, by decide, trivial⟩, trivial⟩, by decide,
      ⟨rfl, ⟨rfl, rfl, trivial⟩, trivial⟩,
      by decide⟩
  obtain ⟨g, hmain, hboot⟩ := boots_described hdesc (by decide) (Builder.State.fresh.image 2)
  have hmap : ∀ disk, (halfBios disk).MapEnds := by
    intro disk
    have hfits : Leftovers.memoryMap + 24 * (0 + 1) + 0x200 ≤ bootLoc := by decide
    exact ⟨0, hfits, .inr (.inr Bool.false_ne_true)⟩
  obtain ⟨r, hrun, hends⟩ := (hboot zeroLoader (halfBios _) (fun _ => 0) rfl (hmap _)).2
    Builder.Text.kernelName Builder.Text.kernelPath [0xEB, 0xFE] rfl rfl (by decide)
  cases r with
  | error e => exact absurd hends (halfBios_fails _ (by decide) e)
  | ok M' => exact ⟨g, M', hmain, hrun, hends.kernel⟩

end Frosk.Mount
