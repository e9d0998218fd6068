import Mathlib.Tactic
import Frosk.Mount.RoundTrip

/-!
# Images in the kernel: paths

`fs_retrieve` over the entries of an image that is mounted.

* `retrieve_shows` — a path whose names, but for the last, are those of directories leads to
  what the description has there.
* `retrieve_stuck` — on any other path `fs_retrieve` does not return.
* `Shows.elsewhere` — what the kernel stores behind the pages with the nodes changes nothing
  of what it finds.
-/

namespace Frosk.Mount

open Lib Fs
open Builder (Fsd Host)

-- ---------------------------------------------------------------------------
-- Memory that is not that of the nodes
-- ---------------------------------------------------------------------------

/-- Alike in the first metadata block. The page behind it is included for nodes at its end. -/
def SameNodes (M M' : Memory) : Prop := ∀ a, 0x1000 ≤ a → a < 0x3000 → M' a = M a

section Elsewhere

variable {H : Host} {M M' D : Memory} {p q first : Nat} {name : CStr} {k : Kind} {fsd : Fsd}

/-- A string depends on its own bytes only. -/
theorem strAt_congr {a n : Nat} (h : ∀ i < n, M' (a + i) = M (a + i)) : strAt M' n a = strAt M n a := by
  induction n generalizing a with
  | zero => rfl
  | succ n ih =>
    have hrest : ∀ i < n, M' (a + 1 + i) = M (a + 1 + i) := fun i hi => by
      rw [Nat.add_assoc, Nat.add_comm 1 i]
      exact h (i + 1) (by omega)
    have hhere : M' a = M a := h 0 (Nat.succ_pos n)
    simp only [strAt, hhere, ih hrest]

/-- A field of a node. -/
theorem SameNodes.get (h : SameNodes M M') (hp : Inner p) {n i : Nat} (hle : i + n ≤ 0x100) :
    M'.get n (addr p + i) = M.get n (addr p + i) := by
  have hlt := hp.2
  refine Memory.get_congr fun j hj => h _ ?_ ?_ <;> unfold addr rfsmbLoc <;> omega

/-- The fields of a node stay when its bytes do. -/
theorem SameNodes.nodeType (h : SameNodes M M') (hp : Inner p) :
    nodeType M' (addr p) = nodeType M (addr p) :=
  congrArg FnodeType.decode (h.get hp (i := 0) (by decide))

theorem SameNodes.commonNext (h : SameNodes M M') (hp : Inner p) :
    commonNext M' (addr p) = commonNext M (addr p) := h.get hp (by decide)

theorem SameNodes.commonData (h : SameNodes M M') (hp : Inner p) :
    commonData M' (addr p) = commonData M (addr p) := h.get hp (by decide)

theorem SameNodes.blockSize (h : SameNodes M M') (hp : Inner p) :
    blockSize M' (addr p) = blockSize M (addr p) := h.get hp (by decide)

theorem StringNode.elsewhere (h : StringNode M p name) (hsame : SameNodes M M') : StringNode M' p name := by
  refine ⟨h.inner, (hsame.nodeType h.inner).trans h.type,
    (strAt_congr fun i hi => hsame _ ?_ ?_).trans h.value⟩
  all_goals
    have hlt := h.inner.2
    unfold fnodeString addr rfsmbLoc fnodeAddSize sizeofString
    omega

theorem EntryNode.elsewhere {type : FnodeType} (h : EntryNode M p name type) (hsame : SameNodes M M') :
    EntryNode M' p name type := by
  refine ⟨h.inner, (hsame.nodeType h.inner).trans h.type, ?_⟩
  rw [show commonName M' (addr p) = commonName M (addr p) from hsame.get h.inner (by decide)]
  exact h.name.elsewhere hsame

theorem FileNode.elsewhere {actual : CStr} {bytes : List UInt8} (h : FileNode H M D p actual bytes)
    (hsame : SameNodes M M') : FileNode H M' D p actual bytes := by
  have hlba : blockLba M' (addr p) = blockLba M (addr p) := hsame.get h.inner (by decide)
  have hnext : blockNext M' (addr p) = blockNext M (addr p) := hsame.get h.inner (by decide)
  refine ⟨h.inner, (hsame.nodeType h.inner).trans h.type, hnext.trans h.next,
    (hsame.blockSize h.inner).trans h.size, h.file, ?_, ?_⟩
  · rw [hlba]
    exact h.fits
  · rw [hlba]
    exact h.disk

theorem Stored.elsewhere (hsame : SameNodes M M') (h : Stored H M D fsd q p) : Stored H M' D fsd q p := by
  induction fsd generalizing q p with
  | done => exact h
  | file fields actual rest ih =>
    obtain ⟨x, hentry, hnext, ⟨bytes, hfile⟩, hrest⟩ := h
    refine ⟨x, hentry.elsewhere hsame, (hsame.commonNext hentry.inner).trans hnext, ⟨bytes, ?_⟩, ih hrest⟩
    rw [hsame.commonData hentry.inner]
    exact hfile.elsewhere hsame
  | dir fields contents rest ihc ih =>
    obtain ⟨x, hentry, hnext, hcontents, hrest⟩ := h
    refine ⟨x, hentry.elsewhere hsame, (hsame.commonNext hentry.inner).trans hnext, ?_, ih hrest⟩
    rw [hsame.commonData hentry.inner]
    exact ihc hcontents
  | indir fields target rest ih =>
    obtain ⟨x, hentry, hnext, htarget, hrest⟩ := h
    refine ⟨x, hentry.elsewhere hsame, (hsame.commonNext hentry.inner).trans hnext, ?_, ih hrest⟩
    rw [hsame.commonData hentry.inner]
    exact htarget.elsewhere hsame

theorem RowNode.elsewhere {r : CStr × Kind} (h : RowNode H M D p r) (hsame : SameNodes M M') :
    RowNode H M' D p r := by
  refine ⟨h.entry.elsewhere hsame, ?_⟩
  have hleads := h.leads
  rw [hsame.commonData h.entry.inner]
  obtain ⟨name, k⟩ := r
  cases k with
  | file actual =>
    obtain ⟨bytes, hfile⟩ : ∃ bytes, FileNode H M D _ actual bytes := hleads
    exact ⟨bytes, hfile.elsewhere hsame⟩
  | dir contents => exact Stored.elsewhere hsame hleads
  | indir target => exact StringNode.elsewhere hleads hsame

/-- The chain of the rows is the same, and no node that it reaches is anything else. -/
theorem Reaches.elsewhere (hsame : SameNodes M M') {rs : List (CStr × Kind)}
    (hrows : RowNodes H M D first rs) (h : Reaches M first p) :
    Reaches M' first p ∧ ∃ rs, RowNodes H M D p rs := by
  induction h with
  | first => exact ⟨.first, rs, hrows⟩
  | @next q _ hq ih =>
    obtain ⟨hreach, rs, hq'⟩ := ih
    cases rs with
    | nil => exact absurd hq' hq
    | cons r rs =>
      obtain ⟨hrow, hrest⟩ := hq'
      have hreach' := hreach.next hq
      rw [hsame.commonNext hrow.entry.inner] at hreach'
      exact ⟨hreach', rs, hrest⟩

variable {S : Source} {s : State} {F : Forest} {kind : Ptr → Kind} {d x : Ptr} {contents : Fsd}
  {todo : Ptr → List (CStr × Kind)} {rs : List (CStr × Kind)}

/-- The tree of a directory does not depend on the memory. -/
theorem Holds.elsewhere {t : SearchTree Ptr} (h : Holds s d t) (M' : Memory) :
    Holds { s with mem := M' } d t := ⟨h.ne_null, h.type, h.shape, h.sorted, h.apart, h.used⟩

/-- The nodes of a directory, and where its chain begins. -/
theorem DirShows.elsewhere (h : DirShows S s F kind d contents rs) (hsame : SameNodes S.mem M') :
    DirShows { S with mem := M' } { s with mem := M' } F kind d contents rs ∧
      Source.first { S with mem := M' } { s with mem := M' } d = S.first s d ∧
      ∃ rows, RowNodes S.host S.mem S.disk (S.first s d) rows := by
  obtain ⟨p, hp, hnode, htype, hstored⟩ := h.node
  have hdata := hsame.commonData hp
  have hrows := hstored.rowNodes (show RowNodes S.host S.mem S.disk 0 [] from rfl)
  refine ⟨⟨h.holds, h.distinct, h.hasdata, ⟨p, hp, hnode, (hsame.nodeType hp).trans htype, ?_⟩, h.absent,
    h.loaded⟩, ?_, (rows contents).reverse ++ [], ?_⟩
  · show Stored S.host M' S.disk contents 0 (Fs.commonData M' (addr p))
    rw [hdata]
    exact hstored.elsewhere hsame
  · show Fs.commonData M' (s.ent d).node = Fs.commonData S.mem (s.ent d).node
    rw [hnode, hdata]
  · rw [Source.first, hnode]
    exact hrows

/-- So the file system is shown while its nodes stay. -/
theorem Shows.elsewhere (h : Shows S s F kind todo) (hsame : SameNodes S.mem M') :
    Shows { S with mem := M' } { s with mem := M' } F kind todo := by
  obtain ⟨hroot, hbase, hholds, hapart, hrank, hdirs, hplain⟩ := h.planted
  refine ⟨⟨hroot, hbase, fun d hd => Holds.elsewhere (hholds d hd) M', hapart, hrank, hdirs,
    hplain⟩, h.root, rfl,
    h.size, h.dev, fun d hd x hx => ?_, fun d hd => ?_⟩
  · obtain ⟨contents, hdir⟩ := h.dirs d hd
    obtain ⟨-, hfirst, rows, hrows⟩ := hdir.elsewhere hsame
    obtain ⟨htype, ⟨p, hnode, hreach, hrow⟩, hfile⟩ := h.entries d hd x hx
    refine ⟨htype, ⟨p, hnode, ?_, hrow.elsewhere hsame⟩, ?_⟩
    · rw [hfirst]
      exact (hreach.elsewhere hsame hrows).1
    · intro hk
      obtain ⟨hflags, hsize⟩ := hfile hk
      refine ⟨hflags, hsize.imp_right fun hsize => hsize.trans ?_⟩
      have hleads := hrow.leads
      rw [hnode]
      show Fs.blockSize S.mem _ = Fs.blockSize M' (addr (Fs.commonData M' (addr p)))
      rw [hsame.commonData hrow.entry.inner]
      cases hkind : kind x with
      | file actual =>
        rw [hkind] at hleads
        obtain ⟨bytes, hnode⟩ : ∃ bytes, FileNode S.host S.mem S.disk _ actual bytes := hleads
        exact (hsame.blockSize hnode.inner).symm
      | dir contents => rw [hkind] at hk; cases hk
      | indir target => rw [hkind] at hk; cases hk
  · obtain ⟨contents, hdir⟩ := h.dirs d hd
    exact ⟨contents, (hdir.elsewhere hsame).1⟩

end Elsewhere

-- ---------------------------------------------------------------------------
-- fs_retrieve
-- ---------------------------------------------------------------------------

/-- Every name but the last is that of a directory. -/
def Kind.Passes : Kind → List CStr → Prop
  | _, [] => True
  | .dir contents, c :: cs => cs = [] ∨ ∃ k, findRow (rows contents) c = some k ∧ k.Passes cs
  | .file _, _ :: _ | .indir _, _ :: _ => False

/-- Where a path begins, with `cd` at `here`. -/
def begins (fsd : Fsd) (here : Option Kind) (name : CStr) : Option Kind :=
  if name.chars.head? = some slash then some (.dir fsd) else here

/-- What the description has at a path. -/
def located (fsd : Fsd) (here : Option Kind) (name : CStr) : Option Kind :=
  (begins fsd here name).bind fun k => k.follow (components (relative name))

/-- The path passes directories only. -/
def Passable (fsd : Fsd) (here : Option Kind) (name : CStr) : Prop :=
  ∀ k, begins fsd here name = some k → k.Passes (components (relative name))

section Paths

variable {S : Source} {s : State} {F : Forest} {kind : Ptr → Kind} {x cd : Ptr} {k : Kind}
  {here : Option Kind} {name : CStr}

/-- Following a path ends where the description says. -/
theorem follow_shows (h : Shows S s F kind fun _ => []) (hx : Is s F kind x k) (E : Env) {path : List CStr}
    (hpass : k.Passes path) :
    ∃ s' F' kind' y, Settles (fun n => Fs.follow E n path x s) (s', y) ∧ Shows S s' F' kind' (fun _ => []) ∧
      IsFound s' F' kind' y (k.follow path) ∧ Keeps s F kind s' F' kind' := by
  induction path generalizing s F kind x k with
  | nil =>
    exact ⟨s, F, kind, x, settles_of_eq fun n => rfl, h, by cases k <;> exact hx, fun _ _ hx => hx⟩
  | cons c path ih =>
    cases k with
    | file actual => exact hpass.elim
    | indir target => exact hpass.elim
    | dir contents =>
      obtain ⟨s₁, F₁, kind₁, y₁, hset₁, hshows₁, hfound₁, -, -, hkeeps₁⟩ := resolve_shows h hx E c
      have hok : ¬ (x = NULL ∨ (s.ent x).type ≠ .DIRECTORY) := by
        rw [hx.type h]
        simp [hx.ne_null, Kind.entType]
      have hstep : ∀ {r : State × Ptr}, Settles (fun n => Fs.follow E n path y₁ s₁) r →
          Settles (fun n => Fs.follow E n (c :: path) x s) r := by
        intro r hr
        have hbind := hset₁.bind (g := fun n r => Fs.follow E n path r.2 r.1) hr
        refine (congrArg (Settles · r) (funext fun n => ?_)).mpr hbind
        rw [Fs.follow, if_neg hok]
        rfl
      rcases hpass with rfl | ⟨k, hrow, hpass⟩
      · refine ⟨s₁, F₁, kind₁, y₁, hstep (settles_of_eq fun n => rfl), hshows₁, ?_, hkeeps₁⟩
        have hlast : (Kind.dir contents).follow [c] = findRow (rows contents) c := by
          rw [Kind.follow]
          cases findRow (rows contents) c with
          | none => rfl
          | some k => cases k <;> rfl
        rw [hlast]
        exact hfound₁
      · rw [hrow] at hfound₁
        obtain ⟨s₂, F₂, kind₂, y₂, hset₂, hshows₂, hfound₂, hkeeps₂⟩ := ih hshows₁ hfound₁ hpass
        refine ⟨s₂, F₂, kind₂, y₂, hstep hset₂, hshows₂, ?_,
          fun z k hz => hkeeps₂ z k (hkeeps₁ z k hz)⟩
        rw [Kind.follow, hrow]
        exact hfound₂

/-- The names that are looked up in directories are those of directories. -/
theorem passes_of_directories (h : Shows S s F kind fun _ => []) (hx : Is s F kind x k) {E : Env}
    {path : List CStr} (hdirs : Directories E path x s) : k.Passes path := by
  induction path generalizing s F kind x k with
  | nil =>
    rw [Kind.Passes]
    trivial
  | cons c path ih =>
    obtain ⟨⟨-, htype⟩, hrest⟩ := hdirs
    rw [hx.type h] at htype
    cases k with
    | file actual => cases htype
    | indir target => cases htype
    | dir contents =>
      obtain ⟨s₁, F₁, kind₁, y₁, ⟨n, hn⟩, hshows₁, hfound₁, -⟩ := resolve_shows h hx E c
      have hrest₁ := hrest n s₁ y₁ (hn n le_rfl)
      rw [Kind.Passes]
      cases hrow : findRow (rows contents) c with
      | none =>
        rw [hrow] at hfound₁
        have hnull : y₁ = NULL := hfound₁
        cases path with
        | nil => exact .inl rfl
        | cons c' path => exact absurd hnull hrest₁.1.1
      | some k =>
        rw [hrow] at hfound₁
        exact .inr ⟨k, rfl, ih hshows₁ hfound₁ hrest₁⟩

/-- A path starts at the root or at the current directory. -/
theorem begins_found (h : Shows S s F kind fun _ => []) (hcd : IsFound s F kind cd here) (name : CStr) :
    IsFound s F kind (s.startOf name cd) (begins S.fsd here name) := by
  unfold begins State.startOf
  split
  · exact ⟨(h.planted.holds _ h.planted.root).ne_null, h.root, .inl rfl⟩
  · exact hcd

/-- `fsRetrieve` finds what the description has at the path. -/
theorem retrieve_shows (h : Shows S s F kind fun _ => []) (hcd : IsFound s F kind cd here) (E : Env)
    (hpass : Passable S.fsd here name) :
    ∃ s' F' kind' y, Settles (fun n => fsRetrieve E n name cd s) (s', y) ∧ Shows S s' F' kind' (fun _ => []) ∧
      IsFound s' F' kind' y (located S.fsd here name) ∧ Keeps s F kind s' F' kind' := by
  have hbegin := begins_found h hcd name
  unfold located
  cases hfirst : begins S.fsd here name with
  | none =>
    rw [hfirst] at hbegin
    exact ⟨s, F, kind, NULL, settles_of_eq fun n => if_pos hbegin, h, rfl, fun _ _ hx => hx⟩
  | some k =>
    rw [hfirst] at hbegin
    have hstart : Is s F kind (s.startOf name cd) k := hbegin
    obtain ⟨s', F', kind', y, ⟨n, hn⟩, hshows, hfound, hkeeps⟩ := follow_shows h hstart E (hpass k hfirst)
    refine ⟨s', F', kind', y, ⟨max n ((relative name).length + 1), ?_⟩, hshows, hfound, hkeeps⟩
    intro m hm
    have hcall := fsRetrieve_eq (E := E) hstart.ne_null (show (relative name).length < m by omega)
    exact hcall.trans (hn m (by omega))

/-- On any other path `fs_retrieve` does not return. -/
theorem retrieve_stuck (h : Shows S s F kind fun _ => []) (hcd : IsFound s F kind cd here) (E : Env)
    (hpass : ¬ Passable S.fsd here name) (r : State × Ptr) :
    ¬ Settles (fun n => fsRetrieve E n name cd s) r := by
  have hbegin := begins_found h hcd name
  obtain ⟨k, hfirst, hnot⟩ : ∃ k, begins S.fsd here name = some k ∧
      ¬ k.Passes (components (relative name)) := by
    simpa only [Passable, not_forall, exists_prop] using hpass
  rw [hfirst] at hbegin
  have hstart : Is s F kind (s.startOf name cd) k := hbegin
  exact fsRetrieve_fails hstart.ne_null (fun hdirs => hnot (passes_of_directories h hstart hdirs)) r

end Paths

end Frosk.Mount
