import Mathlib.Tactic
import Frosk.Fs.Bounds
import Frosk.Fs.Directory
import Frosk.Scheduler.Isolation
import Frosk.Exec.Definitions

/-!
# Execution of files: scripts that execute scripts

`fexec` calls itself for the interpreter of a script, which may be a script again. Nothing
bounds the number of these calls.

* `terminates_of_next`, `fexec_some` — a call returns if it gets through with what else it calls
  and the call for its interpreter returns, and only then.
* `self_script_hangs` — a script that names itself is never done.
-/

namespace Frosk.Exec

open Lib

-- ---------------------------------------------------------------------------
-- Larger bounds
-- ---------------------------------------------------------------------------

section Below

variable (E : Env) {k k' : Nat} (hle : k ≤ k')
include hle

/-- More rounds do not change what is loaded. -/
theorem load_below (cd : Ptr) (c : Call) : Below (load E k cd c) (load E k' cd c) := by
  unfold load
  refine below_bind (Fs.fsRetrieve_below E.fs hle _ _ _) fun r => below_ite (below_refl _) ?_
  refine below_bind (Fs.fsSize_below E.fs hle _ _) fun r => below_ite ?_ (below_refl _)
  exact below_bind (Fs.fsRead_below E.fs hle _ _ _ _) fun r => below_refl _

theorem scan_below (m : Memory) (buf : Ptr) (i : Int) : Below (scan m buf k i).2 (scan m buf k' i).2 := by
  induction k generalizing k' i with
  | zero => exact below_none
  | succ k ih =>
    obtain ⟨j, rfl⟩ : ∃ j, k' = j + 1 := ⟨k' - 1, by omega⟩
    rw [scan, scan]
    split
    · exact below_refl _
    · exact ih (by omega) _

/-- More rounds do not change the name of the interpreter. -/
theorem interpreter_below (B : Buffer) : Below (B.interpreter E k) (B.interpreter E k') := by
  refine below_bind (scan_below hle _ _ _) ?_
  intro i
  exact below_bind (Fs.strAt_below _ hle _) fun _ => below_refl _

theorem args_below (m : Memory) (argv : List Ptr) :
    Below (argv.mapM (Fs.strAt m k)) (argv.mapM (Fs.strAt m k')) := by
  induction argv with
  | nil => exact below_refl _
  | cons a argv ih =>
    rw [List.mapM_cons, List.mapM_cons]
    exact below_bind (Fs.strAt_below m hle a) fun _ => below_bind ih fun _ => below_refl _

theorem bexec_below (buf : Ptr) (size : Nat) (argv : List Ptr) (s : State) :
    Below (bexec E k buf size argv s).2 (bexec E k' buf size argv s).2 := by
  unfold bexec
  split
  · split
    · exact below_bind (args_below hle _ _) fun _ => below_refl _
    · exact below_refl _
  · exact below_refl _

end Below

/-- A result for one bound is the result. -/
theorem settles_of_below {ρ : Type*} {f : Nat → Option ρ} (hf : ∀ {n k}, n ≤ k → Below (f n) (f k)) {n : Nat}
    {r : ρ} (h : f n = some r) : Settles f r :=
  ⟨n, fun _ hk => hf hk r h⟩

-- ---------------------------------------------------------------------------
-- Chains of interpreters
-- ---------------------------------------------------------------------------

/-- The call is for a script, and `c'` is the call for its interpreter. -/
def Next (E : Env) (cd : Ptr) (c c' : Call) : Prop :=
  ∃ B, Settles (fun k => load E k cd c) (.loaded B) ∧ isScript B.mem B.buf B.size ∧
    Settles (fun k => B.interpreter E k) c'

/-- What is called besides the interpreter returns: the functions of the file system, and
either the scan of a script or `bexec`. -/
def GetsThrough (E : Env) (cd : Ptr) (c : Call) : Prop :=
  (∃ s, Settles (fun k => load E k cd c) (.nothing s)) ∨
    ∃ B, Settles (fun k => load E k cd c) (.loaded B) ∧
      if isScript B.mem B.buf B.size then ∃ c', Settles (fun k => B.interpreter E k) c'
      else ∃ r, Settles (fun k => (bexec E k B.buf B.size B.argv B.state).2) r

/-- The calls that `c` leads to. -/
abbrev Leads (E : Env) (cd : Ptr) : Call → Call → Prop := Relation.ReflTransGen (Next E cd)

/-- With enough room for its loops and its calls, `fexec` returns. -/
def Terminates (E : Env) (cd : Ptr) (c : Call) : Prop :=
  ∃ r, Settles (fun k => (fexec E k cd k c).2) r

section Chains

variable {E : Env} {cd : Ptr} {c c' : Call} {k d : Nat}

/-- A script has one interpreter. -/
theorem Next.unique {c₁ c₂ : Call} (h₁ : Next E cd c c₁) (h₂ : Next E cd c c₂) : c₁ = c₂ := by
  obtain ⟨B, hB, -, hc₁⟩ := h₁
  obtain ⟨B', hB', -, hc₂⟩ := h₂
  obtain rfl := Found.loaded.inj (hB.unique hB')
  exact hc₁.unique hc₂

/-- A call that returns to some depth gets through, and so does its interpreter to one less. -/
theorem fexec_some {r : State × Ptr} (h : (fexec E k cd (d + 1) c).2 = some r) :
    GetsThrough E cd c ∧ ∀ c', Next E cd c c' → ∃ r', (fexec E k cd d c').2 = some r' := by
  rw [fexec] at h
  cases hload : load E k cd c with
  | none => simp [hload] at h
  | some found =>
    have hsettles := settles_of_below (fun hle => load_below E hle cd c) hload
    simp only [hload] at h
    cases found with
    | nothing s =>
      refine ⟨.inl ⟨s, hsettles⟩, ?_⟩
      rintro c' ⟨B, hB, -⟩
      exact absurd (hsettles.unique hB) (by simp)
    | loaded B =>
      by_cases hscript : isScript B.mem B.buf B.size
      · simp only [if_pos hscript] at h
        cases hnext : B.interpreter E k with
        | none => simp [hnext] at h
        | some c₁ =>
          have hinterp := settles_of_below (fun hle => interpreter_below E hle B) hnext
          simp only [hnext] at h
          refine ⟨.inr ⟨B, hsettles, ?_⟩, ?_⟩
          · rw [if_pos hscript]
            exact ⟨c₁, hinterp⟩
          · rintro c' ⟨B', hB', -, hc'⟩
            obtain rfl := Found.loaded.inj (hsettles.unique hB')
            obtain rfl := hinterp.unique hc'
            obtain ⟨r', hr', -⟩ := Option.map_eq_some_iff.mp h
            exact ⟨r', hr'⟩
      · simp only [if_neg hscript] at h
        obtain ⟨r', hr', -⟩ := Option.map_eq_some_iff.mp h
        refine ⟨.inr ⟨B, hsettles, ?_⟩, ?_⟩
        · rw [if_neg hscript]
          exact ⟨r', settles_of_below (fun hle => bexec_below E hle _ _ _ _) hr'⟩
        · rintro c' ⟨B', hB', hscript', -⟩
          obtain rfl := Found.loaded.inj (hsettles.unique hB')
          exact absurd hscript' hscript

/-- A larger bound and more calls change no result. -/
theorem fexec_below {k' d' : Nat} (hk : k ≤ k') (hd : d ≤ d') (c : Call) :
    Below (fexec E k cd d c).2 (fexec E k' cd d' c).2 := by
  intro r h
  induction d generalizing d' c r with
  | zero => simp [fexec] at h
  | succ d ih =>
    obtain ⟨d', rfl⟩ : ∃ j, d' = j + 1 := ⟨d' - 1, by omega⟩
    rw [fexec] at h ⊢
    cases hload : load E k cd c with
    | none => simp [hload] at h
    | some found =>
      rw [load_below E hk cd c found hload]
      simp only [hload] at h
      cases found with
      | nothing s => exact h
      | loaded B =>
        by_cases hscript : isScript B.mem B.buf B.size
        · simp only [if_pos hscript] at h ⊢
          cases hnext : B.interpreter E k with
          | none => simp [hnext] at h
          | some c' =>
            simp only [hnext, interpreter_below E hk B c' hnext] at h ⊢
            obtain ⟨r', hr', hr⟩ := Option.map_eq_some_iff.mp h
            rw [ih (by omega) c' r' hr', Option.map_some, hr]
        · simp only [if_neg hscript] at h ⊢
          obtain ⟨r', hr', hr⟩ := Option.map_eq_some_iff.mp h
          rw [bexec_below E hk _ _ _ _ r' hr', Option.map_some, hr]

/-- A result with some bound is the result. -/
theorem terminates_of_some {r : State × Ptr} (h : (fexec E k cd d c).2 = some r) : Terminates E cd c :=
  ⟨r, max k d, fun _ hle => fexec_below (le_of_max_le_left hle) (le_of_max_le_right hle) c r h⟩

/-- A call that gets through returns if its interpreter does. -/
theorem terminates_of_next (h : GetsThrough E cd c) (hnext : ∀ c', Next E cd c c' → Terminates E cd c') :
    Terminates E cd c := by
  rcases h with ⟨s, n, hn⟩ | ⟨B, ⟨n, hn⟩, hB⟩
  · have hload : load E n cd c = some (.nothing s) := hn n le_rfl
    have hcall : (fexec E n cd 1 c).2 = some (s, NULL) := by
      rw [fexec, hload]
    exact terminates_of_some hcall
  by_cases hscript : isScript B.mem B.buf B.size
  · rw [if_pos hscript] at hB
    obtain ⟨c', m, hm⟩ := hB
    obtain ⟨r, i, hi⟩ := hnext c' ⟨B, ⟨n, hn⟩, hscript, m, hm⟩
    have hload : load E (max (max n m) i) cd c = some (.loaded B) := hn _ (by omega)
    have hinterp : B.interpreter E (max (max n m) i) = some c' := hm _ (by omega)
    have hrest := fexec_below (show i ≤ max (max n m) i by omega) le_rfl c' r (hi i le_rfl)
    have hcall : (fexec E (max (max n m) i) cd (i + 1) c).2 =
        some (kfree B.buf (kfree (B.withNargv E).2 r.1), r.2) := by
      rw [fexec, hload]
      simp only [if_pos hscript, hinterp, hrest, Option.map_some]
    exact terminates_of_some hcall
  · rw [if_neg hscript] at hB
    obtain ⟨r, m, hm⟩ := hB
    have hload : load E (max n m) cd c = some (.loaded B) := hn _ (Nat.le_max_left n m)
    have hbexec : (bexec E (max n m) B.buf B.size B.argv B.state).2 = some r := hm _ (Nat.le_max_right n m)
    have hcall : (fexec E (max n m) cd 1 c).2 = some (kfree B.buf r.1, r.2) := by
      rw [fexec, hload]
      simp only [if_neg hscript, hbexec, Option.map_some]
    exact terminates_of_some hcall

end Chains

-- ---------------------------------------------------------------------------
-- A script that names itself
-- ---------------------------------------------------------------------------

/-- Blocks are put behind each other. -/
def stackHeap (used : List (Ptr × Nat)) (_ : Nat) : Nat :=
  used.foldr (fun b a => max (b.1 + b.2) a) 0x1000

def smallEnv : Env := ⟨.plain, Scheduler.smallEnv, Scheduler.smallImage, stackHeap⟩

/-- The root directory, with a file `a` of `n` bytes whose data is in memory. -/
def fileState (n : Nat) (m : Memory) : Fs.State :=
  { (((Fs.Op.enter Fs.nameA 0x100 n).call .plain 1 .single 3).getD (.single, NULL)).1 with mem := m }

/-- The path `/a`. -/
def pathA : CStr := ⟨[47, 97], by decide⟩

/-- The text `#!/a` and a newline. -/
def selfText : List UInt8 := [35, 33, 47, 97, 10]

/-- A call for the script `a`. -/
structure SelfCall (c : Call) : Prop where
  fn   : c.fn = pathA
  file : ∃ m : Memory, c.state.fs = fileState 5 m ∧ m.slice 0x100 5 = selfText

/-- The heap of the example is above its file. -/
theorem stackHeap_le (used : List (Ptr × Nat)) (n : Nat) : (0x1000 : Nat) ≤ stackHeap used n := by
  unfold stackHeap
  induction used with
  | nil => exact le_refl _
  | cons b used ih => exact ih.trans (Nat.le_max_right _ _)

section FileState

variable {n : Nat} {m : Memory}

theorem fileState_retrieve :
    Fs.fsRetrieve .plain 4 pathA NULL (fileState n m) = some (fileState n m, 2) := rfl

/-- The file of the example has its size. -/
theorem fileState_size (hn : n ≠ Fs.fsSizeUnknown) :
    Fs.fsSize .plain 4 2 (fileState n m) = some (fileState n m, n) := by
  have hkind : ¬ ((2 : Ptr) = NULL ∨ ((fileState n m).ent 2).type ≠ .FILE) := by
    rintro (h | h)
    · cases h
    · exact h rfl
  have hsize : ((fileState n m).ent 2).size = n := rfl
  rw [Fs.fsSize, if_neg hkind, hsize, if_pos hn]

theorem fileState_read (hpos : 0 < n) (hn : n < Fs.fsSizeUnknown) :
    Fs.fsRead .plain 4 0 n 2 (fileState n m) = some (fileState n m, n, m.slice 0x100 n) := by
  have hkind : ¬ ((fileState n m).ent 2).type ≠ .FILE := fun h => h rfl
  have hsize : ((fileState n m).ent 2).size = n := rfl
  have hhook : ¬ ((fileState n m).ent 2).flags.hooked = true := Bool.false_ne_true
  have hvirt : ((fileState n m).ent 2).flags.present = true ∨ ((fileState n m).ent 2).flags.virt = true :=
    .inr rfl
  have hword : n < wordSize := by
    unfold Fs.fsSizeUnknown at hn
    omega
  have hsub : wsub n 0 = n := by rw [wsub_eq (Nat.zero_le n) hword, Nat.sub_zero]
  rw [Fs.fsRead, if_neg hkind, hsize, if_neg (by omega), fileState_size hn.ne]
  rw [Option.bind_eq_bind, Option.bind_some]
  dsimp only
  rw [hsub, if_neg (lt_irrefl n), if_neg hpos.ne', if_neg hhook, if_pos hvirt, hsize, if_pos hpos,
    Nat.zero_add, Nat.mod_eq_of_lt hword, if_neg (lt_irrefl n)]
  rfl

end FileState

/-- The loading of the file `a`. -/
theorem load_file {c : Call} {n : Nat} {m : Memory} (hfn : c.fn = pathA) (hfs : c.state.fs = fileState n m)
    (hn : 1 < n) (hword : n < Fs.fsSizeUnknown) :
    load smallEnv 4 NULL c = some (.loaded ⟨stackHeap c.state.used n, n, c.argv,
      ⟨fileState n (m.blit (stackHeap c.state.used n) (m.slice 0x100 n)), c.state.sched,
        (stackHeap c.state.used n, n) :: c.state.used⟩⟩) := by
  have hfile : ¬ (2 : Ptr) = NULL := by decide
  have hretrieve : Fs.fsRetrieve smallEnv.fs 4 pathA NULL (fileState n m) = _ := fileState_retrieve
  have hsize : Fs.fsSize smallEnv.fs 4 2 (fileState n m) = _ := fileState_size hword.ne
  have hread : Fs.fsRead smallEnv.fs 4 0 n 2 (fileState n m) = _ := fileState_read (by omega) hword
  rw [load, hfn, hfs, hretrieve]
  simp only [Option.bind_eq_bind, Option.bind_some, if_neg hfile, hsize, gt_iff_lt, if_pos hn, kalloc, hread]
  rfl

/-- The interpreter of the script is the script. -/
theorem SelfCall.next {c : Call} (h : SelfCall c) : ∃ c', Next smallEnv NULL c c' ∧ SelfCall c' := by
  obtain ⟨m, hfs, htext⟩ := h.file
  have hload := load_file h.fn hfs (by omega) (by unfold Fs.fsSizeUnknown wordSize; omega)
  have hlow := stackHeap_le c.state.used 5
  rw [htext] at hload
  generalize stackHeap c.state.used 5 = buf at hload hlow
  have hbyte : ∀ i : Nat, ∀ hi : i < 5, m.blit buf selfText (buf + i) = selfText[i] :=
    fun i hi => Memory.blit_inside hi
  have haddr : ∀ i : Nat, ((buf : Int) + i).toNat = buf + i := fun i => by omega
  have hscan : (scan (m.blit buf selfText) buf 3 2).2 = some 4 := by
    have hnext : succInt 2 = (3 : Nat) := rfl
    have hnext' : succInt (3 : Nat) = (4 : Nat) := rfl
    have hgo : ¬ EndsName (byteAt (m.blit buf selfText) buf (2 : Nat)) := by
      rw [byteAt, haddr, hbyte 2 (by decide)]
      decide
    have hgo' : ¬ EndsName (byteAt (m.blit buf selfText) buf (3 : Nat)) := by
      rw [byteAt, haddr, hbyte 3 (by decide)]
      decide
    have hstop : EndsName (byteAt (m.blit buf selfText) buf (4 : Nat)) := by
      rw [byteAt, haddr, hbyte 4 (by decide)]
      decide
    show (scan (m.blit buf selfText) buf 3 (2 : Nat)).2 = some 4
    rw [scan, if_neg hgo]
    show (scan (m.blit buf selfText) buf 2 (succInt 2)).2 = some 4
    rw [hnext, scan, if_neg hgo', hnext', scan, if_pos hstop]
    rfl
  have hname : Fs.strAt (Function.update (m.blit buf selfText) (buf + 4) 0) 3 (buf + 2) = some pathA := by
    have h₂ : Function.update (m.blit buf selfText) (buf + 4) 0 (buf + 2) = 47 := by
      rw [Function.update_of_ne (by omega), hbyte 2 (by decide)]
      rfl
    have h₃ : Function.update (m.blit buf selfText) (buf + 4) 0 (buf + 2 + 1) = 97 := by
      rw [Function.update_of_ne (by omega), hbyte 3 (by decide)]
      rfl
    have h₄ : Function.update (m.blit buf selfText) (buf + 4) 0 (buf + 2 + 1 + 1) = 0 :=
      Function.update_self ..
    generalize Function.update (m.blit buf selfText) (buf + 4) 0 = m' at h₂ h₃ h₄
    simp [Fs.strAt, h₂, h₃, h₄, pathA]
  have hsettles := settles_of_below (fun hle => load_below smallEnv hle NULL c) hload
  refine ⟨_, ⟨_, hsettles, ?_, settles_of_below (fun hle => interpreter_below smallEnv hle _)
    (Option.bind_eq_some_iff.mpr ⟨4, hscan, Option.bind_eq_some_iff.mpr ⟨pathA, hname, rfl⟩⟩)⟩,
    rfl, _, rfl, ?_⟩
  · exact ⟨show 5 > 2 by omega, hbyte 0 (by decide), hbyte 1 (by decide)⟩
  · refine (Memory.slice_congr fun i hi => ?_).trans htext
    have hne : 0x100 + i ≠ buf + 4 := by omega
    exact (Function.update_of_ne hne 0 _).trans (Memory.blit_outside (by omega))

/-- The root directory has a script `a` that is to be executed by `/a`. -/
def selfCall : Call :=
  ⟨pathA, [], ⟨fileState 5 (Memory.blit (fun _ => 0) 0x100 selfText), Scheduler.bootState, []⟩⟩

/-- The script names itself. -/
theorem self_script_hangs : ¬ Terminates smallEnv NULL selfCall := by
  have hself : SelfCall selfCall := ⟨rfl, _, rfl, Memory.slice_blit_self⟩
  have hnever : ∀ d k c, SelfCall c → (fexec smallEnv k NULL d c).2 = none := by
    intro d
    induction d with
    | zero => exact fun k c _ => rfl
    | succ d ih =>
      intro k c hc
      obtain ⟨c', hnext, hc'⟩ := hc.next
      cases hcall : (fexec smallEnv k NULL (d + 1) c).2 with
      | none => rfl
      | some r =>
        obtain ⟨r', hr'⟩ := (fexec_some hcall).2 c' hnext
        rw [ih k c' hc'] at hr'
        cases hr'
  rintro ⟨r, n, hn⟩
  exact absurd ((hn n le_rfl).symm.trans (hnever n n _ hself)) (by simp)

end Frosk.Exec
