import Mathlib.Tactic
import Frosk.Fs.Files
import Frosk.Mount.Loading

/-!
# Images in the kernel: the round trip

What the builder makes of a description is what the kernel finds again.

* `image_round_trip` — for every description whose nodes fit in the first metadata block, over
  every run of queries after `setup_fs`: each path leads to what the description has there,
  down to the bytes of files, in whatever order the directories are loaded.
-/

namespace Frosk.Mount

open Lib Fs
open Builder (Fsd Host)

section Queries

variable {E : Env} {S : Source} {s s' : State} {F : Forest} {kind : Ptr → Kind} {x : Ptr} {k : Kind}
  {contents fsd : Fsd} {actual : CStr}

-- ---------------------------------------------------------------------------
-- Paths
-- ---------------------------------------------------------------------------

/-- Names are followed one after the other. -/
theorem walk_shows (h : Shows S s F kind fun _ => []) (found : Option Kind) (hx : IsFound s F kind x found)
    (E : Env) (path : List CStr) :
    ∃ s' F' kind' y, Settles (fun k => walk E k path x s) (s', y) ∧ Shows S s' F' kind' (fun _ => []) ∧
      IsFound s' F' kind' y (found.bind fun k => k.follow path) ∧ s'.rootDir = s.rootDir := by
  induction path generalizing s F kind x found with
  | nil =>
    refine ⟨s, F, kind, x, settles_of_eq fun k => rfl, h, ?_, rfl⟩
    cases found with
    | none => exact hx
    | some k => cases k <;> exact hx
  | cons c path ih =>
    -- there is nothing below anything but a directory
    have hstop : (x = NULL ∨ (s.ent x).type ≠ .DIRECTORY) →
        (found.bind fun k => k.follow (c :: path)) = none →
        ∃ s' F' kind' y, Settles (fun k => walk E k (c :: path) x s) (s', y) ∧
          Shows S s' F' kind' (fun _ => []) ∧
          IsFound s' F' kind' y (found.bind fun k => k.follow (c :: path)) ∧ s'.rootDir = s.rootDir := by
      intro hcond hnone
      rw [hnone]
      refine ⟨s, F, kind, NULL, settles_of_eq fun k => ?_, h, rfl, rfl⟩
      rw [walk, if_pos hcond]
    cases found with
    | none => exact hstop (.inl hx) rfl
    | some k =>
      have hx : Is s F kind x k := hx
      have htype := hx.type h
      cases k with
      | file actual => exact hstop (.inr (by simp [htype, Kind.entType])) rfl
      | indir target => exact hstop (.inr (by simp [htype, Kind.entType])) rfl
      | dir contents =>
        obtain ⟨s₁, F₁, kind₁, y₁, hset₁, hshows₁, hfound₁, -, hroot₁, -⟩ := resolve_shows h hx E c
        obtain ⟨s₂, F₂, kind₂, y₂, hset₂, hshows₂, hfound₂, hroot₂⟩ := ih hshows₁ _ hfound₁
        refine ⟨s₂, F₂, kind₂, y₂, ?_, hshows₂, hfound₂, hroot₂.trans hroot₁⟩
        have hok : ¬ (x = NULL ∨ (s.ent x).type ≠ .DIRECTORY) := by
          rw [htype]
          simp [hx.ne_null, Kind.entType]
        have hbind := hset₁.bind (g := fun k r => walk E k path r.2 r.1) hset₂
        refine (congrArg (Settles · (s₂, y₂)) (funext fun k => ?_)).mpr hbind
        rw [walk, if_neg hok]
        rfl

-- ---------------------------------------------------------------------------
-- Files
-- ---------------------------------------------------------------------------

/-- The size of a file is stored in its entry. -/
theorem Shows.setSize (h : Shows S s F kind fun _ => []) (hx : Is s F kind x (.file actual)) :
    Shows S (s.setSize x (blockSize S.mem (addr (commonData S.mem (s.ent x).node)))) F kind fun _ => [] := by
  let size := blockSize S.mem (addr (commonData S.mem (s.ent x).node))
  let f : Entry → Entry := fun v => { v with size := size }
  have haside : Aside f := by
    constructor <;> intro _ <;> rfl
  have hself : (s.setSize x size).ent x = f (s.ent x) := modify_ent_self
  have hent : ∀ y, y ≠ x → (s.setSize x size).ent y = s.ent y := fun y hy => modify_ent_ne hy
  have hkey : (s.setSize x size).key = s.key := by
    funext y
    exact congrArg CStr.key (modify_field s x Entry.name haside.name y)
  have hfirst : ∀ y, S.first (s.setSize x size) y = S.first s y := fun y =>
    congrArg (commonData S.mem) (modify_field s x (f := f) Entry.node (fun _ => rfl) y)
  refine ⟨h.planted.modify haside fun _ => rfl, h.root, h.mem, h.size, h.dev, fun d hd y hy => ?_,
    fun d hd => ?_⟩
  · rw [hfirst]
    obtain ⟨htype, hnode, hfile⟩ := h.entries d hd y hy
    by_cases hyx : y = x
    · subst hyx
      refine ⟨?_, ?_, fun hk => ⟨?_, .inr ?_⟩⟩
      · rw [hself]
        exact htype
      · rw [hself]
        exact hnode
      · rw [hself]
        exact (hfile hk).1
      · rw [hself]
    · exact ⟨hent y hyx ▸ htype, hent y hyx ▸ hnode, hent y hyx ▸ hfile⟩
  · have hdx : d ≠ x := by
      rintro rfl
      have hdir := (h.planted.holds d hd).type
      rw [hx.type h] at hdir
      cases hdir
    obtain ⟨contents, hdir⟩ := h.dirs d hd
    exact ⟨contents, hdir.holds, hdir.distinct, hent d hdx ▸ hdir.hasdata, hent d hdx ▸ hdir.node,
      hent d hdx ▸ hdir.absent, by rw [hent d hdx, hkey]; exact hdir.loaded⟩

/-- A file is read whole, after its size was asked for. -/
theorem read_shows (h : Shows S s F kind fun _ => []) (hx : Is s F kind x (.file actual))
    (hdisk : E.disk = S.disk) (hpage : headerPageSize S.mem rfsmbLoc = 0x1000) :
    ∃ bytes s', S.host.file actual = some bytes ∧
      Settles (fun k => fsSize E k x s) (s', bytes.length) ∧
      Settles (fun k => fsRead E k 0 bytes.length x s') (s', bytes.length, bytes) ∧
      Shows S s' F kind (fun _ => []) ∧ s'.rootDir = s.rootDir := by
  obtain ⟨d, hd, hmem⟩ : ∃ d ∈ F.live, x ∈ (F.tree d).toList := by
    refine hx.place.resolve_left ?_
    intro hroot
    have hdir := (h.planted.holds _ h.planted.root).type
    rw [← hroot, hx.type h] at hdir
    cases hdir
  obtain ⟨htype, ⟨p, hnode, -, hrow⟩, hfile⟩ := h.entries d hd x hmem
  rw [hx.holds] at htype hfile hrow
  obtain ⟨hflags, hcached⟩ := hfile rfl
  obtain ⟨bytes, hinner, hblock, hnext, hsize, hhost, hfits, hbytes⟩ := hrow.leads
  rw [hnode] at hcached
  let b := addr (commonData S.mem (addr p))
  have hlt : bytes.length < fsSizeUnknown := by
    unfold fsSizeUnknown wordSize
    omega
  have honDisk : ∀ v, OnDisk (s.setSize x v) x := by
    intro v
    have hself : (s.setSize x v).ent x = { s.ent x with size := v } := modify_ent_self
    refine ⟨hx.ne_null, ?_, ?_, ?_, ?_, ?_⟩ <;> rw [hself]
    · exact htype
    · show (s.ent x).node ≠ NULL
      rw [hnode]
      exact addr_ne_null p
    · exact congrArg Flags.virt hflags
    · exact congrArg Flags.present hflags
    · exact congrArg Flags.hooked hflags
  have hptr : s.dataPtr x = commonData S.mem (addr p) := by
    rw [State.dataPtr, h.mem, hnode]
  have hres : resolveNode E (s.dataPtr x) s = some (s, b) := by
    rw [hptr]
    exact resolve_inner E h.size hinner
  have hnext' : blockNext s.mem b = 0 := by
    rw [h.mem]
    exact hnext
  have hchain : Chain E s (s.dataPtr x) [b] := ⟨hres, addr_ne_null _, h.mem ▸ hblock, hnext'⟩
  have hsize' : blockSize s.mem b = bytes.length := by
    rw [h.mem]
    exact hsize
  have hcalled : Settles (fun k => fsSize E k x s) (s.setSize x bytes.length, bytes.length) := by
    by_cases hunknown : (s.ent x).size = fsSizeUnknown
    · have hset :=
        fsSize_unknown (setSize_same (s := s) (e := x) ▸ honDisk (s.ent x).size) hunknown hres hchain
      have htotal : total s [b] % wordSize = bytes.length := by
        rw [total, List.map_singleton, List.sum_singleton, hsize']
        exact Nat.mod_eq_of_lt (hlt.trans (by decide))
      rwa [htotal] at hset
    · have hknown : (s.ent x).size = bytes.length := (hcached.resolve_left hunknown).trans hsize
      refine settles_of_eq ?_
      intro k
      rw [fsSize_known (setSize_same (s := s) (e := x) ▸ honDisk (s.ent x).size) hunknown, ← hknown,
        setSize_same]
  -- the entry now has the size, and there is one block to read
  let s₁ := s.setSize x bytes.length
  have hdone : Shows S s₁ F kind (fun _ => []) := by
    have hset := h.setSize hx
    rw [hnode, hsize] at hset
    exact hset
  have hself : s₁.ent x = { s.ent x with size := bytes.length } := modify_ent_self
  have hknown : (s₁.ent x).size = bytes.length := congrArg Entry.size hself
  have hon : OnDisk s₁ x := honDisk _
  refine ⟨bytes, s₁, hhost, hcalled, ?_, hdone, rfl⟩
  by_cases hzero : bytes.length = 0
  · refine settles_of_eq ?_
    intro k
    rw [fsRead, if_neg (not_not_intro hon.type), if_pos (hknown.trans_le hzero.le), hzero]
    rw [List.length_eq_zero_iff.mp hzero]
  · have hptr₁ : s₁.dataPtr x = s.dataPtr x := by
      rw [State.dataPtr, hself]
      rfl
    have hres₁ : resolveNode E (s₁.dataPtr x) s₁ = some (s₁, b) := by
      rw [hptr₁]
      exact resolveNode_setSize hres bytes.length
    have hend : resolveNode E (blockNext s₁.mem b) s₁ = some (s₁, NULL) := by
      rw [show blockNext s₁.mem b = 0 from hnext']
      rfl
    have hsize₁ : blockSize s₁.mem b = bytes.length := hsize'
    have hstart : blockStart s₁ b = blockLba S.mem b * 0x1000 := by
      show blockLba s.mem b * headerPageSize s.mem rfsmbLoc = _
      rw [h.mem, hpage]
    have hkeeps : Settles (fun k => fsSize E k x s₁) (s₁, bytes.length) := by
      refine settles_of_eq ?_
      intro k
      rw [fsSize_known hon (by rw [hknown]; exact hlt.ne), hknown]
    have hsub : wsub bytes.length 0 = bytes.length := wsub_eq (Nat.zero_le _) (hlt.trans (by decide))
    have hmin : min bytes.length (wsub bytes.length 0) = bytes.length := by rw [hsub, Nat.min_self]
    have hplaced : blockStart s₁ b + 0 < wordSize := by
      have hlow : blockLba S.mem b * 0x1000 ≤ 2 ^ 63 := le_trans (Nat.le_add_right ..) hfits
      rw [hstart]
      unfold wordSize
      omega
    have hexits := oneBlock_exits (E := E) bytes.length (addr_ne_null _) (h.mem ▸ hblock) hzero
      (show 0 < blockSize s₁.mem b by omega) hplaced hend
    refine (fsRead_settles_iff hon (by omega) hkeeps hon hres₁ (by omega)).mpr ⟨_, hmin.symm ▸ hexits, ?_⟩
    rw [hmin, hsize₁, Nat.min_self, Nat.sub_self, Nat.sub_zero, hstart, Nat.add_zero, hdisk, hbytes]

/-- A query has the answer of the description, and leaves the rest of the image to be found. -/
theorem query_shows (h : Shows S s F kind fun _ => []) (hdisk : E.disk = S.disk)
    (hpage : headerPageSize S.mem rfsmbLoc = 0x1000) (path : List CStr) :
    ∃ s' F' kind', Settles (fun k => query E path k s) (s', answer S.host S.fsd path) ∧
      Shows S s' F' kind' (fun _ => []) := by
  have hroot : Is s F kind s.rootDir (.dir S.fsd) :=
    ⟨(h.planted.holds _ h.planted.root).ne_null, h.root, .inl rfl⟩
  obtain ⟨s₁, F₁, kind₁, y, ⟨n, hn⟩, hshows, hfound, -⟩ :=
    walk_shows h (some (.dir S.fsd)) hroot E path
  rw [Option.bind_some] at hfound
  cases hkind : (Kind.dir S.fsd).follow path with
  | none =>
    rw [hkind] at hfound
    have hy : y = NULL := hfound
    refine ⟨s₁, F₁, kind₁, ⟨n, ?_⟩, hshows⟩
    intro k hk
    have hwalk := hn k hk
    simp only [query, hwalk, Option.bind_eq_bind, Option.bind_some, if_pos hy, answer, hkind]
  | some k =>
    rw [hkind] at hfound
    have hy : Is s₁ F₁ kind₁ y k := hfound
    have htype := hy.type hshows
    cases k with
    | dir contents =>
      have htype : (s₁.ent y).type = .DIRECTORY := htype
      refine ⟨s₁, F₁, kind₁, ⟨n, ?_⟩, hshows⟩
      intro k hk
      have hwalk := hn k hk
      simp only [query, hwalk, Option.bind_eq_bind, Option.bind_some, if_neg hy.ne_null, htype, answer, hkind]
    | indir dest =>
      have htype : (s₁.ent y).type = .INDIRECT := htype
      refine ⟨s₁, F₁, kind₁, ⟨n, ?_⟩, hshows⟩
      intro k hk
      have hwalk := hn k hk
      simp only [query, hwalk, Option.bind_eq_bind, Option.bind_some, if_neg hy.ne_null, htype, answer, hkind]
    | file actual =>
      have htype : (s₁.ent y).type = .FILE := htype
      obtain ⟨bytes, s₂, hhost, ⟨n₂, hn₂⟩, ⟨n₃, hn₃⟩, hshows₂, -⟩ := read_shows hshows hy hdisk hpage
      refine ⟨s₂, F₁, kind₁, ⟨max n (max n₂ n₃), ?_⟩, hshows₂⟩
      intro k hk
      have hwalk := hn k (by omega)
      have hsize := hn₂ k (by omega)
      have hread := hn₃ k (by omega)
      simp only [query, hwalk, Option.bind_eq_bind, Option.bind_some, if_neg hy.ne_null, htype, hsize, hread,
        answer, hkind, hhost, Option.getD_some]

-- ---------------------------------------------------------------------------
-- setup_fs
-- ---------------------------------------------------------------------------

/-- The forest of one empty directory. -/
def alone (r : Ptr) : Forest where
  live := {r}
  tree _ := .nil
  rank _ := 0

/-- `setupFs` shows the description at the root. -/
theorem setup_shows (hready : Ready S.host S.mem S.disk S.fsd) (hmem : s.mem = S.mem)
    (hdev : s.rootDev = true) (hdistinct : Distinct S.fsd) (E : Env) :
    ∃ s' F kind, setupFs E s = some s' ∧ Shows S s' F kind (fun _ => []) ∧
      S.first s' s'.rootDir = commonData S.mem (addr (headerRoot S.mem rfsmbLoc)) := by
  let d := E.kalloc.pick s.used
  let root : Entry := { initEntry (s.ent d) none NULL .DIRECTORY with
    flags.hasdata := true, node := addr (headerRoot S.mem rfsmbLoc) }
  let s₁ : State := { s with nodeSize := 0x10, used := d :: s.used, rootDir := d }
  have hrun : setupFs E s = some (s₁.modify d fun _ => root) := by
    have hpage : headerPageSize s.mem rfsmbLoc / 0x100 = 0x10 := by
      rw [hmem, hready.page]
    let s₂ : State := (s₁.modify d fun old => initEntry old none NULL .DIRECTORY).modify d fun v =>
      { v with flags.hasdata := true }
    have hres :
        resolveNode E (headerRoot s₂.mem rfsmbLoc) s₂ = some (s₂, addr (headerRoot S.mem rfsmbLoc)) := by
      rw [show s₂.mem = S.mem from hmem]
      exact resolve_inner E rfl hready.root
    simp only [setupFs, hpage]
    refine (congrArg (Option.bind · _) hres).trans (congrArg some ?_)
    show s₂.modify d (fun v => { v with node := addr (headerRoot S.mem rfsmbLoc) }) = _
    simp only [s₂, modify_modify]
    rfl
  let s' := s₁.modify d fun _ => root
  have hself : s'.ent d = root := modify_ent_self
  have hnull : d ≠ NULL := E.kalloc.ne_null s.used
  have hholds : Holds s' d .nil := by
    refine ⟨hnull, ?_, ?_, List.Pairwise.nil, List.not_mem_nil, ?_⟩
    · rw [hself]
      rfl
    · rw [hself]
      rfl
    · intro x hx
      rw [List.mem_singleton.mp hx]
      exact List.mem_cons_self
  refine ⟨s', alone d, fun _ => .dir S.fsd, hrun, ⟨⟨rfl, rfl, ?_, nofun, nofun, nofun, nofun⟩, rfl, hmem, rfl,
    hdev, nofun, ?_⟩, ?_⟩
  · rintro x rfl
    exact hholds
  · rintro x rfl
    refine ⟨S.fsd, rfl, hdistinct, ?_, ⟨_, hready.root, ?_, hready.type, hready.stored⟩, fun _ => rfl,
      fun hp => ?_⟩
    · rw [hself]
    · rw [hself]
    · rw [hself] at hp
      cases hp
  · show commonData S.mem (s'.ent d).node = _
    rw [hself]

end Queries

/-- **Image round trip**: the image of every description whose nodes fit in the first metadata
block, mounted, answers every query of a run as the description does. -/
theorem image_round_trip (H : Host) (rperm : Nat) (rowner : Option CStr) (fsd : Fsd) (s : Builder.Image)
    (hdistinct : Distinct fsd) (hshort : Builder.Short (rowner.toFinset ∪ fsd.strings))
    (hread : fsd.Readable H) (hend : (3 + fsd.blocks H) * 0x1000 ≤ 2 ^ 63)
    (hroom : 32 + fsd.room + Builder.need (rowner.toFinset ∪ fsd.strings) ∅ ≤
      Builder.BlockSize.default.room) :
    ∃ s' g, Settles (fun k => Builder.parseFsd H k 0x1000 1 rperm rowner fsd s) s' ∧
      Settles (fun k => Builder.writeFs H s' k .new) g ∧
      ∀ (E : Env) (t : State), E.disk = g.bytes → Loaded t.mem g.bytes → t.rootDev = true →
        ∃ t', setupFs E t = some t' ∧ ∀ paths : List (List CStr),
          Along (Step E) (fun _ path _ a => a = answer H fsd path) t' paths := by
  obtain ⟨s', g, hparse, hwrite, hready⟩ := image_ready H rperm rowner fsd s hshort hread hend hroom
  refine ⟨s', g, hparse, hwrite, ?_⟩
  intro E t hdisk hloaded hdev
  let S : Source := ⟨H, fsd, t.mem, g.bytes⟩
  obtain ⟨t', F, kind, hsetup, hshows, -⟩ := setup_shows (S := S) (hready t.mem hloaded) rfl hdev hdistinct E
  refine ⟨t', hsetup, ?_⟩
  intro paths
  have hstep : ∀ u path, (∃ F kind, Shows S u F kind fun _ => []) → True → ∃ u' a, Step E u path u' a ∧
      a = answer H fsd path ∧ ∃ F kind, Shows S u' F kind fun _ => [] := by
    rintro u path ⟨F, kind, hinv⟩ -
    obtain ⟨u', F', kind', ⟨n, hn⟩, hshows'⟩ := query_shows hinv hdisk (hready t.mem hloaded).page path
    exact ⟨u', _, ⟨n, hn n le_rfl⟩, rfl, F', kind', hshows'⟩
  exact along_of_invariant hstep ⟨F, kind, hshows⟩ (whenever_of_forall fun _ _ => trivial)

/-- A host with one file, of three bytes. -/
def hostA : Host where
  malloc := .above
  file name := if name = nameA then some [1, 2, 3] else none
  frame _ _ := 0

/-- A directory `b` with the file `a`, and an indirect entry `a` besides. -/
def fsdAB : Fsd :=
  .dir ⟨nameB, none, none⟩ (.file ⟨nameA, none, none⟩ nameA .done) (.indir ⟨nameA, none, none⟩ nameB .done)

/-- The image of two files and a directory. -/
theorem image_round_trip_small :
    ∃ s' g,
      Settles (fun k => Builder.parseFsd hostA k 0x1000 1 0 none fsdAB (Builder.State.fresh.image 2)) s' ∧
      Settles (fun k => Builder.writeFs hostA s' k .new) g ∧
      ∀ (E : Env) (t : State), E.disk = g.bytes → Loaded t.mem g.bytes → t.rootDev = true →
        ∃ t', setupFs E t = some t' ∧ ∀ paths : List (List CStr),
          Along (Step E) (fun _ path _ a => a = answer hostA fsdAB path) t' paths :=
  image_round_trip hostA 0 none fsdAB _ ⟨by decide, ⟨by decide, trivial⟩, by decide, trivial⟩ (by decide)
    ⟨⟨rfl, trivial⟩, trivial⟩ (by decide) (by decide)

/-- The file in the directory, and the entry beside it. -/
example : answer hostA fsdAB [nameB, nameA] = .file 3 3 [1, 2, 3] ∧
    answer hostA fsdAB [nameA] = .indirect := by
  decide

end Frosk.Mount
