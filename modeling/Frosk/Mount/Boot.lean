import Mathlib.Tactic
import Frosk.Mount.RoundTrip

/-!
# Images in the kernel: the boot loader

The embedding of the search of `load_kernel` of `boot/src/after/fs.inc`, which looks through
the entries of the root for the kernel, before there is a kernel.

* Registers are `si`, `bx` and `esi`; an address is 16 bits, and the segments are 0. The boot
  loader has read the first metadata block to where the kernel uses it.
* The name is compared as far as `kernel_name` goes, which is without a terminator. A name
  that only begins so is taken too.

Main result: `boot_agrees_iff`. For every image whose root is not empty, boot loader and kernel
find the same file, or both none, exactly if the entry that was made last among those whose names
begin with `kernel.bin` is `kernel.bin` itself.
-/

namespace Frosk.Mount

open Lib Fs
open Builder (Fsd Host)

-- ---------------------------------------------------------------------------
-- load_kernel
-- ---------------------------------------------------------------------------

/-- The characters at `kernel_name`. -/
def kernelName : List UInt8 := "kernel.bin".toList.map Char.toUInt8

/-- `deref`: `si` for the pointer in `esi`. -/
def deref (esi : Nat) : Nat := (esi % 0x10000 * 0x10 % 0x10000 + rfsmbLoc) % 0x10000

/-- `.cmp_loop`, with what is left of `kernel_name` at `di`. -/
def cmpLoop (M : Memory) : List UInt8 → Nat → Bool
  | [], _ => true
  | c :: di, si => if M si ≠ c then false else cmpLoop M di ((si + 1) % 0x10000)

/-- One round of `.search_loop`: it ends with the node in `bx`, or without a kernel. -/
def searchLoop (M : Memory) (esi : Nat) : Nat ⊕ Option Nat :=
  let bx := deref esi
  let si := (deref (M.get 4 ((bx + 4) % 0x10000)) + 0x10) % 0x10000
  if cmpLoop M kernelName si then .inr (some bx)
  else
    let esi := M.get 4 ((bx + 0xC) % 0x10000)
    if esi ≠ 0 then .inl esi else .inr none

/-- `load_kernel` up to `.found`. -/
def loadKernel (M : Memory) (k : Nat) : Option (Option Nat) :=
  let si := deref (M.get 4 (rfsmbLoc + 0x10))
  iterate (searchLoop M) k (M.get 4 ((si + 0x10) % 0x10000))

-- ---------------------------------------------------------------------------
-- The search
-- ---------------------------------------------------------------------------

/-- The name that the kernel looks for. -/
def kernelBin : CStr := ⟨kernelName, by decide⟩

/-- The boot loader takes this entry. -/
def taken (r : CStr × Kind) : Bool := kernelName.isPrefixOf r.1.chars

section Search

variable {H : Host} {M D : Memory} {p q q' k : Nat} {rs : List (CStr × Kind)} {r r' : CStr × Kind}
  {str : CStr}

/-- A node lies below the end of the two node blocks. -/
theorem addr_le (hp : Inner p) : addr p ≤ 0x1ff0 := by
  have hlt := hp.2
  unfold addr rfsmbLoc
  omega

/-- The loader follows a pointer to where the node is. -/
theorem deref_inner (hp : Inner p) : deref p = addr p := by
  have hlt := hp.2
  unfold deref addr rfsmbLoc
  omega

/-- The loader compares a name up to the end of its own string. -/
theorem cmpLoop_iff {l : List UInt8} {a : Nat} (h : strAt M k a = some str) (hl : 0 ∉ l)
    (ha : a + l.length < 0x10000) : cmpLoop M l a = true ↔ l <+: str.chars := by
  induction l generalizing k a str with
  | nil => simp [cmpLoop]
  | cons c l ih =>
    simp only [List.mem_cons, not_or] at hl
    obtain ⟨hc, hl⟩ := hl
    rw [List.length_cons] at ha
    cases k with
    | zero => cases h
    | succ k =>
      rw [strAt] at h
      split at h
      · rename_i hzero
        obtain rfl := Option.some.inj h
        have hne : M a ≠ c := fun heq => hc (hzero.symm.trans heq)
        simp [cmpLoop, hne]
      · obtain ⟨rest, hrest, rfl⟩ := Option.map_eq_some_iff.mp h
        by_cases hne : M a = c
        · have hmod : (a + 1) % 0x10000 = a + 1 := Nat.mod_eq_of_lt (by omega)
          rw [cmpLoop, if_neg (not_not_intro hne), hmod, ih hrest hl (by omega)]
          show l <+: rest.chars ↔ c :: l <+: M a :: rest.chars
          rw [hne, List.prefix_cons_inj]
        · rw [cmpLoop, if_pos hne, List.cons_prefix_cons]
          simp [Ne.symm hne]

/-- The round at the node of an entry. -/
theorem searchLoop_row (h : RowNode H M D p r) : searchLoop M p =
    if taken r then .inr (some (addr p))
    else if commonNext M (addr p) ≠ 0 then .inl (commonNext M (addr p)) else .inr none := by
  have hlow := addr_le h.entry.inner
  have hname := h.entry.name
  have hlow' := addr_le hname.inner
  have hfield : ∀ i, i ≤ 0x10 → (addr p + i) % 0x10000 = addr p + i :=
    fun i hi => Nat.mod_eq_of_lt (by omega)
  have hplace :
      (deref (M.get 4 (addr p + 4)) + 0x10) % 0x10000 = fnodeString (commonName M (addr p) |> addr) := by
    rw [show M.get 4 (addr p + 4) = commonName M (addr p) from rfl, deref_inner hname.inner]
    exact Nat.mod_eq_of_lt (by omega)
  have hcmp : cmpLoop M kernelName (fnodeString (addr (commonName M (addr p)))) = taken r := by
    rw [Bool.eq_iff_iff, cmpLoop_iff hname.value (by decide), taken, List.isPrefixOf_iff_prefix]
    show addr _ + 2 + 14 + 10 < 0x10000
    omega
  simp only [searchLoop, deref_inner h.entry.inner, hfield 4 (by decide), hfield 0xC (by decide),
    hplace, hcmp]
  rfl

/-- A node that is reached from the next one is reached. -/
theorem reaches_cons (hp : p ≠ 0) (h : Reaches M (commonNext M (addr p)) q) : Reaches M p q := by
  induction h with
  | first => exact .next .first hp
  | next _ hq ih => exact .next ih hq

/-- A node that is reached is the first one or behind it. -/
theorem reaches_cases (h : Reaches M p q) : q = p ∨ p ≠ 0 ∧ Reaches M (commonNext M (addr p)) q := by
  induction h with
  | first => exact .inl rfl
  | next _ hq ih =>
    rcases ih with rfl | ⟨hp, hreach⟩
    · exact .inr ⟨hq, .first⟩
    · exact .inr ⟨hp, hreach.next hq⟩

/-- The search ends at the first entry of the chain whose name begins with that of the kernel. -/
theorem search_spec (h : RowNodes H M D p rs) (hne : rs ≠ []) :
    (rs.find? taken = none → Exits (searchLoop M) p none) ∧
    ∀ r, rs.find? taken = some r → ∃ q, Exits (searchLoop M) p (some (addr q)) ∧ Reaches M p q ∧
      RowNode H M D q r := by
  induction rs generalizing p with
  | nil => exact absurd rfl hne
  | cons r rs ih =>
    obtain ⟨hrow, hnext⟩ := h
    have hround := searchLoop_row hrow
    by_cases htaken : taken r = true
    · rw [if_pos htaken] at hround
      rw [List.find?_cons_of_pos htaken]
      refine ⟨nofun, ?_⟩
      intro r' hr'
      obtain rfl := Option.some.inj hr'
      exact ⟨p, exits_of_inr hround, .first, hrow⟩
    · rw [if_neg htaken] at hround
      rw [List.find?_cons_of_neg htaken]
      cases rs with
      | nil =>
        have hend : commonNext M (addr p) = 0 := hnext
        rw [if_neg (not_not_intro hend)] at hround
        exact ⟨fun _ => exits_of_inr hround, nofun⟩
      | cons r₁ rs =>
        rw [if_pos hnext.1.entry.inner.1] at hround
        obtain ⟨hnone, hsome⟩ := ih hnext (List.cons_ne_nil _ _)
        refine ⟨fun hfind => exits_of_inl hround (hnone hfind), fun r' hr' => ?_⟩
        obtain ⟨q, hexits, hreach, hq⟩ := hsome r' hr'
        exact ⟨q, exits_of_inl hround hexits, reaches_cons hrow.entry.inner.1 hreach, hq⟩

/-- A node of a chain is that of one of its rows. -/
theorem row_of_reaches (h : RowNodes H M D p rs) (hreach : Reaches M p q) (hq : q ≠ 0) :
    ∃ r ∈ rs, RowNode H M D q r := by
  induction rs generalizing p with
  | nil =>
    obtain rfl : p = 0 := h
    rcases reaches_cases hreach with rfl | ⟨hp, -⟩
    · exact absurd rfl hq
    · exact absurd rfl hp
  | cons r rs ih =>
    obtain ⟨hrow, hnext⟩ := h
    rcases reaches_cases hreach with rfl | ⟨-, hreach⟩
    · exact ⟨r, List.mem_cons_self, hrow⟩
    · obtain ⟨r', hmem, hrow'⟩ := ih hnext hreach
      exact ⟨r', List.mem_cons_of_mem _ hmem, hrow'⟩

/-- The name in a node. -/
theorem RowNode.name_unique (h : RowNode H M D p r) (h' : RowNode H M D p r') : r.1 = r'.1 :=
  Option.some.inj (h.entry.name.value.symm.trans h'.entry.name.value)

/-- Where names are different, there is one node of each name. -/
theorem node_unique (h : RowNodes H M D p rs) (hnodup : (rs.map Prod.fst).Nodup)
    (hq : Reaches M p q) (hq' : Reaches M p q') (hrow : RowNode H M D q r) (hrow' : RowNode H M D q' r')
    (hname : r.1 = r'.1) : q = q' := by
  have hne := hrow.entry.inner.1
  have hne' := hrow'.entry.inner.1
  induction rs generalizing p with
  | nil =>
    obtain ⟨r₁, hmem, -⟩ := row_of_reaches h hq hne
    cases hmem
  | cons r₁ rs ih =>
    obtain ⟨hfirst, hnext⟩ := h
    obtain ⟨hnew, hnodup⟩ := List.nodup_cons.mp hnodup
    -- no node behind the first has its name
    have hother : ∀ {q r}, Reaches M (commonNext M (addr p)) q → RowNode H M D q r → r₁.1 ≠ r.1 := by
      intro q r hreach hrow heq
      obtain ⟨r₂, hmem, hrow₂⟩ := row_of_reaches hnext hreach hrow.entry.inner.1
      exact hnew (heq ▸ hrow₂.name_unique hrow ▸ List.mem_map_of_mem hmem)
    rcases reaches_cases hq with rfl | ⟨-, hq⟩
    · rcases reaches_cases hq' with rfl | ⟨-, hq'⟩
      · rfl
      · exact absurd ((hfirst.name_unique hrow).trans hname) (hother hq' hrow')
    · rcases reaches_cases hq' with rfl | ⟨-, hq'⟩
      · exact absurd ((hfirst.name_unique hrow').trans hname.symm) (hother hq hrow)
      · exact ih hnext hnodup hq hq'

end Search

-- ---------------------------------------------------------------------------
-- Boot loader and kernel
-- ---------------------------------------------------------------------------

/-- The boot loader finds an entry exactly if the root has one of the name of the kernel, and then
it is the node of the entry that the kernel finds. -/
def SameKernel (E : Env) (fsd : Fsd) (t : State) : Prop :=
  ∃ found t' x, Settles (loadKernel t.mem) found ∧
    Settles (fun k => fsResolve E k kernelBin t.rootDir t) (t', x) ∧
    (found.isSome ↔ kernelBin ∈ names fsd) ∧ ∀ n, found = some n → x ≠ NULL ∧ (t'.ent x).node = n

/-- The last entry whose name begins with that of the kernel, if there is one, is the kernel. -/
def LastIsKernel (fsd : Fsd) : Prop := ∀ r, (rows fsd).reverse.find? taken = some r → r.1 = kernelBin

/-- The name `kernel.bin` is taken. -/
theorem taken_kernel {r : CStr × Kind} (h : r.1 = kernelBin) : taken r = true := by
  rw [taken, h, List.isPrefixOf_iff_prefix]
  exact List.prefix_rfl

/-- The loader and `setupFs` find the same kernel when the newest name taken is the kernel. -/
theorem same_kernel_iff {E : Env} {S : Source} {t : State} {F : Forest} {kind : Ptr → Kind}
    (hready : Ready S.host S.mem S.disk S.fsd) (hshows : Shows S t F kind fun _ => [])
    (hfirst : S.first t t.rootDir = commonData S.mem (addr (headerRoot S.mem rfsmbLoc)))
    (hdistinct : Distinct S.fsd) (hne : rows S.fsd ≠ []) : SameKernel E S.fsd t ↔ LastIsKernel S.fsd := by
  let p := commonData S.mem (addr (headerRoot S.mem rfsmbLoc))
  have hrows : RowNodes S.host S.mem S.disk p ((rows S.fsd).reverse ++ []) := hready.stored.rowNodes rfl
  rw [List.append_nil] at hrows
  have hnodup : ((rows S.fsd).reverse.map Prod.fst).Nodup := by
    rw [List.map_reverse]
    exact List.nodup_reverse.mpr hdistinct.nodup
  obtain ⟨hnone, hsome⟩ := search_spec hrows (by simpa using hne)
  have hload : loadKernel t.mem = fun k => iterate (searchLoop S.mem) k p := by
    funext k
    have hlow := addr_le hready.root
    have hroot : deref (S.mem.get 4 (rfsmbLoc + 0x10)) = addr (headerRoot S.mem rfsmbLoc) :=
      deref_inner hready.root
    rw [loadKernel, hshows.mem, hroot,
      Nat.mod_eq_of_lt (show addr (headerRoot S.mem rfsmbLoc) + 0x10 < 0x10000 by omega)]
    rfl
  have hroot : Is t F kind t.rootDir (.dir S.fsd) :=
    ⟨(hshows.planted.holds _ hshows.planted.root).ne_null, hshows.root, .inl rfl⟩
  obtain ⟨t', F', kind', x, hresolve, hshows', hfound, hentry, -⟩ := resolve_shows hshows hroot E kernelBin
  rw [hfirst] at hentry
  -- the kernel is in the root exactly if its row is there
  have hmem : kernelBin ∈ names S.fsd ↔ (findRow (rows S.fsd) kernelBin).isSome := by
    rw [← not_iff_not, Option.not_isSome_iff_eq_none, findRow_eq_none]
    rfl
  have hnode : kernelBin ∈ names S.fsd → x ≠ NULL ∧ ∃ p' r, (t'.ent x).node = addr p' ∧ Reaches S.mem p p' ∧
      RowNode S.host S.mem S.disk p' r ∧ r.1 = kernelBin := by
    intro hin
    obtain ⟨k, hk⟩ := Option.isSome_iff_exists.mp (hmem.mp hin)
    rw [hk] at hfound
    obtain ⟨⟨-, ⟨p', hnode, hreach, hrow⟩, -⟩, hname⟩ := hentry k hk
    exact ⟨Is.ne_null hfound, p', _, hnode, hreach, hrow, hname⟩
  cases hfind : (rows S.fsd).reverse.find? taken with
  | none =>
    refine iff_of_true ⟨none, t', x, hload ▸ settles_of_exits (hnone hfind), hresolve, ?_, nofun⟩
      (by rw [LastIsKernel, hfind]; exact nofun)
    refine iff_of_false (by simp) ?_
    intro hin
    obtain ⟨r, hr, hname⟩ := List.mem_map.mp hin
    exact List.find?_eq_none.mp hfind r (List.mem_reverse.mpr hr) (taken_kernel hname)
  | some r =>
    obtain ⟨q, hexits, hreach, hrow⟩ := hsome r hfind
    have hrun : Settles (loadKernel t.mem) (some (addr q)) := hload ▸ settles_of_exits hexits
    have hlast : LastIsKernel S.fsd ↔ r.1 = kernelBin := by
      rw [LastIsKernel, hfind]
      exact ⟨fun h => h r rfl, fun h r' hr' => Option.some.inj hr' ▸ h⟩
    rw [hlast]
    constructor
    · rintro ⟨found, t₁, x₁, hrun₁, hresolve₁, hiff, hsame⟩
      obtain rfl := hrun.unique hrun₁
      obtain ⟨rfl, rfl⟩ := Prod.mk.inj (hresolve.unique hresolve₁)
      obtain ⟨-, p', r', hp', -, hrow', hname⟩ := hnode (hiff.mp rfl)
      obtain ⟨-, hq⟩ := hsame _ rfl
      have hqp : q = p' := by
        have haddr := hp'.symm.trans hq
        unfold addr at haddr
        omega
      subst hqp
      exact (hrow.name_unique hrow').trans hname
    · intro hname
      have hin : kernelBin ∈ names S.fsd :=
        hname ▸ List.mem_map_of_mem (List.mem_reverse.mp (List.mem_of_find?_eq_some hfind))
      obtain ⟨hx, p', r', hp', hreach', hrow', hname'⟩ := hnode hin
      obtain rfl := node_unique hrows hnodup hreach hreach' hrow hrow' (hname.trans hname'.symm)
      refine ⟨_, t', x, hrun, hresolve, iff_of_true rfl hin, fun n hn => ⟨hx, ?_⟩⟩
      rw [hp']
      exact Option.some.inj hn

/-- **The kernel of the boot loader**: for the image of every description whose root is not empty
and whose nodes fit in the first metadata block, boot loader and kernel find the same entry exactly
if the last one whose name begins with `kernel.bin`, if there is one, is `kernel.bin`. -/
theorem boot_agrees_iff (H : Host) (rperm : Nat) (rowner : Option CStr) (fsd : Fsd) (s : Builder.Image)
    (hdistinct : Distinct fsd) (hne : rows fsd ≠ [])
    (hshort : Builder.Short (rowner.toFinset ∪ fsd.strings)) (hread : fsd.Readable H)
    (hend : (3 + fsd.blocks H) * 0x1000 ≤ 2 ^ 63)
    (hroom : 32 + fsd.room + Builder.need (rowner.toFinset ∪ fsd.strings) ∅ ≤
      Builder.BlockSize.default.room) :
    ∃ s' g, Settles (fun k => Builder.parseFsd H k 0x1000 1 rperm rowner fsd s) s' ∧
      Settles (fun k => Builder.writeFs H s' k .new) g ∧
      ∀ (E : Env) (t : State), E.disk = g.bytes → Loaded t.mem g.bytes → t.rootDev = true →
        ∃ t', setupFs E t = some t' ∧ (SameKernel E fsd t' ↔ LastIsKernel fsd) := by
  obtain ⟨s', g, hparse, hwrite, hready⟩ := image_ready H rperm rowner fsd s hshort hread hend hroom
  refine ⟨s', g, hparse, hwrite, ?_⟩
  intro E t _ hloaded hdev
  have hready := hready t.mem hloaded
  obtain ⟨t', F, kind, hsetup, hshows, hfirst⟩ :=
    setup_shows (S := ⟨H, fsd, t.mem, g.bytes⟩) hready rfl hdev hdistinct E
  exact ⟨t', hsetup, same_kernel_iff hready hshows hfirst hdistinct hne⟩

/-- A file `kernel.bin` and then a file `kernel.bin.old`. -/
def fsdKernels : Fsd :=
  .file ⟨kernelBin, none, none⟩ nameA
    (.file ⟨⟨kernelName ++ ".old".toList.map Char.toUInt8, by decide⟩, none, none⟩ nameA .done)

/-- A file `kernel` and then a file `kernel.bin`. -/
def fsdKernel : Fsd :=
  .file ⟨⟨"kernel".toList.map Char.toUInt8, by decide⟩, none, none⟩ nameA
    (.file ⟨kernelBin, none, none⟩ nameA .done)

/-- They agree on the image of one kernel. -/
theorem boot_agrees_kernel :
    ∃ s' g,
      Settles (fun k => Builder.parseFsd hostA k 0x1000 1 0 none fsdKernel (Builder.State.fresh.image 2))
        s' ∧
      Settles (fun k => Builder.writeFs hostA s' k .new) g ∧
      ∀ (E : Env) (t : State), E.disk = g.bytes → Loaded t.mem g.bytes → t.rootDev = true →
        ∃ t', setupFs E t = some t' ∧ (SameKernel E fsdKernel t' ↔ LastIsKernel fsdKernel) :=
  boot_agrees_iff hostA 0 none fsdKernel _ ⟨by decide, by decide, trivial⟩ (List.cons_ne_nil _ _) (by decide)
    ⟨rfl, rfl, trivial⟩ (by decide) (by decide)

/-- The boot loader takes `kernel.bin.old`, which was made after `kernel.bin`. -/
theorem other_kernel_taken :
    ∃ s' g t', Settles (fun k => Builder.parseFsd hostA k 0x1000 1 0 none fsdKernels
        (Builder.State.fresh.image 2)) s' ∧
      Settles (fun k => Builder.writeFs hostA s' k .new) g ∧
      setupFs { Env.plain with disk := g.bytes } { State.single with mem := g.bytes, rootDev := true } =
        some t' ∧ ¬ SameKernel { Env.plain with disk := g.bytes } fsdKernels t' := by
  have hdistinct : Distinct fsdKernels := ⟨by decide, by decide, trivial⟩
  obtain ⟨s', g, hparse, hwrite, hready⟩ := image_ready hostA 0 none fsdKernels (Builder.State.fresh.image 2)
    (by decide) ⟨rfl, rfl, trivial⟩ (by decide) (by decide)
  have hready := hready g.bytes fun _ _ _ => rfl
  obtain ⟨t', F, kind, hsetup, hshows, hfirst⟩ := setup_shows (S := ⟨hostA, fsdKernels, g.bytes, g.bytes⟩)
    (s := { State.single with mem := g.bytes, rootDev := true }) hready rfl rfl hdistinct
    { Env.plain with disk := g.bytes }
  refine ⟨s', g, t', hparse, hwrite, hsetup, ?_⟩
  intro hsame
  have hlast := (same_kernel_iff hready hshows hfirst hdistinct (List.cons_ne_nil _ _)).mp hsame
  exact absurd (congrArg CStr.chars (hlast _ rfl)) (by decide)

end Frosk.Mount
