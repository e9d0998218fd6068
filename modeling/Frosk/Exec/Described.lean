import Mathlib.Tactic
import Frosk.Mount.Paths
import Frosk.Exec.Files

/-!
# Execution of files: what the description says

`fexec` on the image that `fsb` writes for a description, mounted by the kernel.

* `mounted_presents` — the functions of the file system find what the description has, also when
  the heap and the callers of `fexec` store behind the pages with the nodes.
* `terminates_iff` — on any file system with contents, `fexec` returns if the chain of interpreters
  from the path ends and there is room for the program there, and for files that are all there only
  then.
* `script_returns` — it does for a script on the image of a description, from `setup_fs` on.
-/

namespace Frosk.Exec

open Lib Mount
open Builder (Fsd Host)

-- ---------------------------------------------------------------------------
-- Contents of a description
-- ---------------------------------------------------------------------------

instance decidablePasses : (k : Kind) → (path : List CStr) → Decidable (k.Passes path)
  | _, [] => .isTrue (by rw [Kind.Passes]; trivial)
  | .dir contents, c :: cs =>
    have : DecidablePred fun k : Kind => k.Passes cs := fun k => decidablePasses k cs
    decidable_of_iff (cs = [] ∨ ∃ k ∈ findRow (rows contents) c, k.Passes cs) (by rw [Kind.Passes]; rfl)
  | .file _, _ :: _ | .indir _, _ :: _ => .isFalse id

instance (fsd : Fsd) (here : Option Kind) (name : CStr) : Decidable (Passable fsd here name) :=
  inferInstanceAs (Decidable (∀ k ∈ begins fsd here name, k.Passes (Fs.components (Fs.relative name))))

/-- What `fexec` makes of what is there. `fs_size` does not return for what is no file. -/
def lookupOf (H : Host) : Option Kind → Lookup
  | none => .nothing
  | some (.file actual) => (H.file actual).elim .stuck .file
  | some (.dir _) | some (.indir _) => .stuck

/-- The contents of the image, with `cd` at `here`. -/
def contentsOf (H : Host) (fsd : Fsd) (here : Option Kind) (name : CStr) : Lookup :=
  if Passable fsd here name then lookupOf H (located fsd here name) else .stuck

/-- The entries in memory are those of the image, and `cd` is the one of `here`. -/
def Mounted (H : Host) (fsd : Fsd) (D : Memory) (cd : Ptr) (here : Option Kind) (fs : Fs.State) : Prop :=
  (∃ F kind, Shows ⟨H, fsd, fs.mem, D⟩ fs F kind (fun _ => []) ∧ IsFound fs F kind cd here) ∧
    Fs.headerPageSize fs.mem Fs.rfsmbLoc = 0x1000

/-- The pages of the nodes are in `still`. -/
def HoldsNodes (still : Set Nat) : Prop := ∀ a, 0x1000 ≤ a → a < 0x3000 → a ∈ still

section Images

variable {H : Host} {fsd : Fsd} {D M : Memory} {cd : Ptr} {here : Option Kind} {fs : Fs.State}
  {still : Set Nat}

/-- What is stored outside of the nodes changes nothing of the file system. -/
theorem Mounted.elsewhere (h : Mounted H fsd D cd here fs) (hsame : SameNodes fs.mem M) :
    Mounted H fsd D cd here { fs with mem := M } := by
  obtain ⟨⟨F, kind, hshows, hcd⟩, hpage⟩ := h
  have hcd' : IsFound { fs with mem := M } F kind cd here := by
    cases here with
    | none => exact hcd
    | some k => exact ⟨hcd.ne_null, hcd.holds, hcd.place⟩
  refine ⟨⟨F, kind, hshows.elsewhere hsame, hcd'⟩, ?_⟩
  refine Eq.trans (Memory.get_congr fun i hi => hsame _ ?_ ?_) hpage <;> unfold Fs.rfsmbLoc <;> omega

/-- No entry is lost, so `cd` is still the same. -/
theorem found_keep {F F' : Fs.Forest} {kind kind' : Ptr → Kind} {fs' : Fs.State}
    (h : IsFound fs F kind cd here) (hkeeps : Keeps fs F kind fs' F' kind') :
    IsFound fs' F' kind' cd here := by
  cases here with
  | none => exact h
  | some k => exact hkeeps cd k h

/-- A path to something that is no file, or through something that is no directory. -/
theorem mounted_stuck (E : Fs.Env) (h : Mounted H fsd D cd here fs) (hdisk : E.disk = D) {name : CStr}
    (hname : contentsOf H fsd here name = .stuck) :
    (∀ r, ¬ Settles (fun k => Fs.fsRetrieve E k name cd fs) r) ∨
      ∃ fs' x, Settles (fun k => Fs.fsRetrieve E k name cd fs) (fs', x) ∧ x ≠ NULL ∧
        ∀ k, Fs.fsSize E k x fs' = none := by
  obtain ⟨⟨F, kind, hshows, hcd⟩, hpage⟩ := h
  by_cases hpass : Passable fsd here name
  · obtain ⟨fs', F', kind', y, hret, hshows', hfound, -⟩ := retrieve_shows hshows hcd E hpass
    rw [contentsOf, if_pos hpass] at hname
    have hnever : ∀ k : Kind, Is fs' F' kind' y k → k.entType ≠ .FILE → y ≠ NULL ∧
        ∀ n, Fs.fsSize E n y fs' = none := by
      intro k hy htype
      refine ⟨hy.ne_null, fun n => if_pos (.inr ?_)⟩
      rw [hy.type hshows']
      exact htype
    change IsFound fs' F' kind' y (located fsd here name) at hfound
    cases hk : located fsd here name with
    | none =>
      rw [hk] at hname
      cases hname
    | some k =>
      rw [hk] at hname hfound
      cases k with
      | dir contents => exact .inr ⟨fs', y, hret, hnever _ hfound (by simp [Kind.entType])⟩
      | indir target => exact .inr ⟨fs', y, hret, hnever _ hfound (by simp [Kind.entType])⟩
      | file actual =>
        -- the file is on the image, so the host has it
        obtain ⟨bytes, -, hbytes, -⟩ := read_shows hshows' hfound hdisk hpage
        have hbytes : H.file actual = some bytes := hbytes
        rw [lookupOf, hbytes] at hname
        cases hname
  · exact .inl (retrieve_stuck hshows hcd E hpass)

/-- A file of the description is found, has its size, and is read as a whole. -/
theorem mounted_file (E : Fs.Env) (h : Mounted H fsd D cd here fs) (hdisk : E.disk = D) {name : CStr}
    {bytes : List UInt8} (hname : contentsOf H fsd here name = .file bytes) :
    ∃ fs₁ x fs₂, Settles (fun k => Fs.fsRetrieve E k name cd fs) (fs₁, x) ∧ x ≠ NULL ∧
      Settles (fun k => Fs.fsSize E k x fs₁) (fs₂, bytes.length) ∧
      Settles (fun k => Fs.fsRead E k 0 bytes.length x fs₂) (fs₂, bytes.length, bytes) ∧
      Mounted H fsd D cd here fs₂ ∧ fs₂.mem = fs.mem := by
  obtain ⟨⟨F, kind, hshows, hcd⟩, hpage⟩ := h
  rw [contentsOf] at hname
  split at hname
  next hpass =>
    obtain ⟨fs₁, F', kind', y, hret, hshows₁, hfound, hkeeps⟩ := retrieve_shows hshows hcd E hpass
    change IsFound fs₁ F' kind' y (located fsd here name) at hfound
    cases hk : located fsd here name with
    | none =>
      rw [hk] at hname
      cases hname
    | some k =>
      rw [hk] at hname hfound
      cases k with
      | dir contents => cases hname
      | indir target => cases hname
      | file actual =>
        obtain ⟨bytes', fs₂, hbytes, hsize, hread, hshows₂, hroot⟩ := read_shows hshows₁ hfound hdisk hpage
        have hbytes : H.file actual = some bytes' := hbytes
        rw [lookupOf, hbytes] at hname
        obtain rfl : bytes' = bytes := Lookup.file.inj hname
        have hmem : fs₂.mem = fs.mem := hshows₂.mem
        have hkept : Keeps fs₁ F' kind' fs₂ F' kind' := fun x k hx =>
          ⟨hx.ne_null, hx.holds, hroot ▸ hx.place⟩
        refine ⟨fs₁, y, fs₂, hret, hfound.ne_null, hsize, hread, ⟨⟨F', kind', ?_, ?_⟩, ?_⟩, hmem⟩
        · rw [hmem]
          exact hshows₂
        · exact found_keep (found_keep hcd hkeeps) hkept
        · rw [hmem]
          exact hpage
  next => cases hname

/-- The functions of the file system find what the description has. -/
theorem mounted_presents (E : Fs.Env) (cd : Ptr) (H : Host) (fsd : Fsd) (here : Option Kind)
    (hstill : HoldsNodes still) :
    Presents E cd still (contentsOf H fsd here) (Mounted H fsd E.disk cd here) where
  stuck fs name hfs hname := mounted_stuck E hfs rfl hname
  nothing fs name hfs hname := by
    obtain ⟨⟨F, kind, hshows, hcd⟩, -⟩ := hfs
    rw [contentsOf] at hname
    split at hname
    next hpass =>
      obtain ⟨fs', F', kind', y, hret, -, hfound, -⟩ := retrieve_shows hshows hcd E hpass
      change IsFound fs' F' kind' y (located fsd here name) at hfound
      cases hk : located fsd here name with
      | none =>
        rw [hk] at hfound
        obtain rfl : y = NULL := hfound
        exact ⟨fs', hret⟩
      | some k =>
        rw [hk] at hname
        cases k with
        | dir contents => cases hname
        | indir target => cases hname
        | file actual =>
          rw [lookupOf] at hname
          cases hbytes : H.file actual <;> rw [hbytes] at hname <;> cases hname
    next => cases hname
  file fs name bytes hfs hname := mounted_file E hfs rfl hname
  aside fs M hfs hsame := hfs.elsewhere fun a hlo hhi => hsame a (hstill a hlo hhi)

end Images

/-- Between `setup_fs` and the first use of a file, the image of a description is mounted, for paths
without `cd` and for paths from the root. -/
theorem setup_mounted (H : Host) (rperm : Nat) (rowner : Option CStr) (fsd : Fsd) (s : Builder.Image)
    (hdistinct : Distinct fsd) (hshort : Builder.Short (rowner.toFinset ∪ fsd.strings))
    (hread : fsd.Readable H) (hend : (3 + fsd.blocks H) * 0x1000 ≤ 2 ^ 63)
    (hroom : 32 + fsd.room + Builder.need (rowner.toFinset ∪ fsd.strings) ∅ ≤
      Builder.BlockSize.default.room) :
    ∃ s' g, Settles (fun k => Builder.parseFsd H k 0x1000 1 rperm rowner fsd s) s' ∧
      Settles (fun k => Builder.writeFs H s' k .new) g ∧
      ∀ (E : Fs.Env) (t : Fs.State), Loaded t.mem g.bytes → t.rootDev = true →
        ∃ t', Fs.setupFs E t = some t' ∧ Mounted H fsd g.bytes NULL none t' ∧
          Mounted H fsd g.bytes t'.rootDir (some (.dir fsd)) t' := by
  obtain ⟨s', g, hparse, hwrite, hready⟩ := image_ready H rperm rowner fsd s hshort hread hend hroom
  refine ⟨s', g, hparse, hwrite, ?_⟩
  intro E t hloaded hdev
  have hready := hready t.mem hloaded
  obtain ⟨t', F, kind, hsetup, hshows, -⟩ :=
    setup_shows (S := ⟨H, fsd, t.mem, g.bytes⟩) hready rfl hdev hdistinct E
  have hmem : t'.mem = t.mem := hshows.mem
  have hpage : Fs.headerPageSize t'.mem Fs.rfsmbLoc = 0x1000 := by
    rw [hmem]
    exact hready.page
  have hroot : Is t' F kind t'.rootDir (.dir fsd) :=
    ⟨(hshows.planted.holds _ hshows.planted.root).ne_null, hshows.root, .inl rfl⟩
  have hshows' : Shows ⟨H, fsd, t'.mem, g.bytes⟩ t' F kind fun _ => [] := by
    rw [hmem]
    exact hshows
  exact ⟨t', hsetup, ⟨⟨F, kind, hshows', rfl⟩, hpage⟩, ⟨F, kind, hshows', hroot⟩, hpage⟩

-- ---------------------------------------------------------------------------
-- Termination
-- ---------------------------------------------------------------------------

/-- **Execution of scripts**: on a file system with the contents `T`, a call of `fexec` returns if the
chain of interpreters from the path ends at a program that there is room for, or at none. Unless the
path strays, it returns only then. So it is on the image of every description, for every `cd`. -/
theorem terminates_iff (E : Env) (cd : Ptr) (still : Set Nat) (hheap : HeapAside E still) :
    (∀ T I, Presents E.fs cd still T I → ∀ c args l, Poised still I c args →
      Scheduler.Base c.state.sched l →
        (Halts E T c.state.sched c.fn args → Terminates E cd c) ∧
          (¬ Strays T E.image c.fn args →
            (Terminates E cd c ↔ Halts E T c.state.sched c.fn args))) ∧
      ∀ H fsd here, HoldsNodes still →
        Presents E.fs cd still (contentsOf H fsd here) (Mounted H fsd E.fs.disk cd here) := by
  refine ⟨fun T I hpres c args l hc hsched => ?_,
    fun H fsd here hstill => mounted_presents E.fs cd H fsd here hstill⟩
  have hhalts : Halts E T c.state.sched c.fn args → Terminates E cd c :=
    terminates_of_halts hheap hpres hc hsched
  refine ⟨hhalts, fun hstays => ⟨fun h => ?_, hhalts⟩⟩
  exact (halts_of_terminates hheap hpres hc h).resolve_right hstays

/-- Blocks behind each other, above the pages with the nodes. -/
def upperHeap (used : List (Ptr × Nat)) (_ : Nat) : Nat :=
  used.foldr (fun b a => max (b.1 + b.2) a) 0x3000

/-- The pages with the nodes. -/
def nodePages : Set Nat := {a | 0x1000 ≤ a ∧ a < 0x3000}

/-- The heap hands out blocks above the nodes. -/
theorem upperHeap_le (used : List (Ptr × Nat)) (n : Nat) : (0x3000 : Nat) ≤ upperHeap used n := by
  unfold upperHeap
  induction used with
  | nil => exact le_refl _
  | cons b used ih => exact ih.trans (Nat.le_max_right _ _)

theorem upperHeap_apart (used : List (Ptr × Nat)) (n : Nat) :
    ∀ b ∈ used, (b.1 + b.2 : Nat) ≤ upperHeap used n := by
  intro b hb
  unfold upperHeap
  induction used with
  | nil => cases hb
  | cons c used ih =>
    rcases List.mem_cons.mp hb with rfl | hb
    · exact Nat.le_max_left _ _
    · exact (ih hb).trans (Nat.le_max_right _ _)

/-- So nothing of the file system is in them. -/
theorem upperHeap_aside {E : Env} (h : E.heap = upperHeap) : HeapAside E nodePages where
  still used n a ha := by
    rw [Env.place, h]
    exact .inl (ha.2.trans_le (upperHeap_le used n))
  apart used n b hb := by
    rw [Env.place, h]
    exact .inl (upperHeap_apart used n b hb)

/-- A binary: two bytes of code, eight more, and the entry at the start of the image. -/
def smallBinary : List UInt8 :=
  leBytes 4 fbeMark ++ leBytes 4 1 ++ leBytes 8 2 ++ leBytes 8 8 ++ leBytes 8 0x200000 ++ [0x90, 0xC3]

/-- A host with the script `#!/b` and a binary. -/
def scriptHost : Host where
  malloc := .above
  file name :=
    if name = Fs.nameA then some [35, 33, 47, 98, 10]
    else if name = Fs.nameB then some smallBinary else none
  frame _ _ := 0

/-- The script is `a`, the binary is `b`. -/
def scriptFsd : Fsd := .file ⟨Fs.nameA, none, none⟩ Fs.nameA (.file ⟨Fs.nameB, none, none⟩ Fs.nameB .done)

/-- The path `/b`. -/
def pathB : CStr := ⟨[47, 98], by decide⟩

/-- Executing the script `/a` returns, on the image of the description. -/
theorem script_returns :
    ∃ (E : Env) (fs : Fs.State), Mounted scriptHost scriptFsd E.fs.disk NULL none fs ∧
      Terminates E NULL ⟨pathA, [], ⟨fs, Scheduler.bootState, []⟩⟩ := by
  obtain ⟨s', g, -, -, hsetup⟩ := setup_mounted scriptHost 0 none scriptFsd (Builder.State.fresh.image 2)
    ⟨by decide, by decide, trivial⟩ (by decide) ⟨rfl, rfl, trivial⟩ (by decide) (by decide)
  obtain ⟨fs, -, hmounted, -⟩ := hsetup .plain { Fs.State.single with mem := g.bytes, rootDev := true }
    (fun _ _ _ => rfl) rfl
  let E : Env := ⟨{ Fs.Env.plain with disk := g.bytes }, Scheduler.smallEnv, Scheduler.smallImage, upperHeap⟩
  have hall := terminates_iff E NULL nodePages (upperHeap_aside rfl)
  have hpres := hall.2 scriptHost scriptFsd none fun a hlo hhi => ⟨hlo, hhi⟩
  refine ⟨E, fs, hmounted, (hall.1 _ _ hpres ⟨pathA, [], ⟨fs, Scheduler.bootState, []⟩⟩ [] []
    ⟨hmounted, .nil⟩ ?_).1 ?_⟩
  · exact (Scheduler.Boot.inv Scheduler.bootState_boot Scheduler.isCut_middle).base
  · have hscript : contentsOf scriptHost scriptFsd none pathA = .file [35, 33, 47, 98, 10] := rfl
    have hbinary : contentsOf scriptHost scriptFsd none pathB = .file smallBinary := rfl
    have hfirst : content [35, 33, 47, 98, 10] = some (.script pathB) := by decide
    have hsecond : content smallBinary = some (.binary [0x90, 0xC3] 8 0x200000) := by decide
    refine ⟨_, .script hscript hfirst (.binary hbinary hsecond), ?_⟩
    rintro P hP
    obtain rfl := Option.some.inj hP
    have hsize : Program.size Scheduler.smallImage ⟨[0x90, 0xC3], 8, 0x200000, [pathB]⟩ < wordSize := by
      decide
    have hpages : Scheduler.Supplied (Scheduler.uspawn Scheduler.smallEnv Scheduler.smallImage [0x90, 0xC3] 8
        0x200000 [pathB] Scheduler.bootState) := by
      decide +kernel
    exact ⟨hsize, hpages⟩

end Frosk.Exec
