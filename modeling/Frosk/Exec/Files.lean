import Mathlib.Tactic
import Frosk.Scheduler.Isolation
import Frosk.Exec.Inside

/-!
# Execution of files: what a path comes to

`fexec` on a file system that has some contents. A file is executed as what its bytes are: a
binary is spawned, a script is a call for the file that its first line names, and everything else
is refused.

* `Presents` is what the functions of the file system do where it has the contents; `Runs` says
  which program a path comes to, over the contents alone.
* `terminates_of_halts` — a call returns if its path comes to a program that there is room for, or
  to none.
* `halts_of_terminates` — and only then, but for files that `fexec` reads or spawns beyond their end.

`kalloc` puts its blocks where nothing else is (`HeapAside`). What the callers of `fexec` pass lies
in memory that is not the heap's, or in blocks that are in use.
-/

namespace Frosk.Exec

open Lib

-- ---------------------------------------------------------------------------
-- Contents of a file system
-- ---------------------------------------------------------------------------

/-- What a file is to `fexec`. -/
inductive Content where
  | script (interpreter : CStr)
  | binary (code : List UInt8) (bss entry : Nat)
  | other
deriving DecidableEq

/-- The name on the first line of a script. -/
def firstLine (bytes : List UInt8) : List UInt8 := (bytes.drop 2).takeWhile fun c => ¬ EndsName c

/-- What a file with these bytes is. A script without an end of its first line that an `int` counts
to, and a binary that is cut off, are nothing. -/
def content (bytes : List UInt8) : Option Content :=
  if bytes.length > 2 ∧ bytes.take 2 = [35, 33] then
    if 2 + (firstLine bytes).length < bytes.length ∧ 2 + (firstLine bytes).length < 0x80000000 then
      some (.script (.ofChars (firstLine bytes)))
    else none
  else if bytes.length > 4 ∧ fromLE (bytes.take 4) = fbeMark then
    if 32 + fromLE ((bytes.drop 8).take 8) ≤ bytes.length then
      some (.binary ((bytes.drop 32).take (fromLE ((bytes.drop 8).take 8)))
        (fromLE ((bytes.drop 16).take 8)) (fromLE ((bytes.drop 24).take 8)))
    else none
  else some .other

/-- What there is at a path. `stuck` is a path through something that is no directory, or to
something that is no file. -/
inductive Lookup where
  | stuck
  | nothing
  | file (bytes : List UInt8)

/-- The functions of the file system, in the states `I`, for paths from `cd`: they find the
contents `T`, and go by nothing but their own state and the memory `still`. -/
structure Presents (E : Fs.Env) (cd : Ptr) (still : Set Nat) (T : CStr → Lookup) (I : Fs.State → Prop) :
    Prop where
  stuck : ∀ fs name, I fs → T name = .stuck →
    (∀ r, ¬ Settles (fun k => Fs.fsRetrieve E k name cd fs) r) ∨
      ∃ fs' x, Settles (fun k => Fs.fsRetrieve E k name cd fs) (fs', x) ∧ x ≠ NULL ∧
        ∀ k, Fs.fsSize E k x fs' = none
  nothing : ∀ fs name, I fs → T name = .nothing →
    ∃ fs', Settles (fun k => Fs.fsRetrieve E k name cd fs) (fs', NULL)
  file : ∀ fs name bytes, I fs → T name = .file bytes → ∃ fs₁ x fs₂,
    Settles (fun k => Fs.fsRetrieve E k name cd fs) (fs₁, x) ∧ x ≠ NULL ∧
      Settles (fun k => Fs.fsSize E k x fs₁) (fs₂, bytes.length) ∧
      Settles (fun k => Fs.fsRead E k 0 bytes.length x fs₂) (fs₂, bytes.length, bytes) ∧ I fs₂ ∧
      fs₂.mem = fs.mem
  aside : ∀ fs M, I fs → (∀ a ∈ still, M a = fs.mem a) → I { fs with mem := M }

/-- The arguments of `uspawn`. -/
structure Program where
  code  : List UInt8
  bss   : Nat
  entry : Nat
  args  : List CStr

/-- A path, with arguments, comes to a program, or to none. -/
inductive Runs (T : CStr → Lookup) : CStr → List CStr → Option Program → Prop
  | nothing {name : CStr} {args : List CStr} (hnothing : T name = .nothing) : Runs T name args none
  | other {name : CStr} {args : List CStr} {bytes : List UInt8} (hfile : T name = .file bytes)
      (hother : content bytes = some .other) : Runs T name args none
  | binary {name : CStr} {args : List CStr} {bytes code : List UInt8} {bss entry : Nat}
      (hfile : T name = .file bytes) (hbinary : content bytes = some (.binary code bss entry)) :
      Runs T name args (some ⟨code, bss, entry, args⟩)
  | script {name interpreter : CStr} {args : List CStr} {bytes : List UInt8} {r : Option Program}
      (hfile : T name = .file bytes) (hscript : content bytes = some (.script interpreter))
      (hrest : Runs T interpreter (interpreter :: args) r) : Runs T name args r

/-- The size of the image of a program, as a number. -/
def Program.size (I : Scheduler.Image) (P : Program) : Nat :=
  Scheduler.wholeSize I P.code.length P.bss P.args

/-- `uspawn` has room for the program: its image has a size, and pages do not run out. -/
structure Room (E : Env) (sched : Scheduler.State) (P : Program) : Prop where
  size  : P.size E.image < wordSize
  pages : Scheduler.Supplied (Scheduler.uspawn E.rgn E.image P.code P.bss P.entry P.args sched)

/-- The chain of interpreters from the path ends, and what it comes to has room. -/
def Halts (E : Env) (T : CStr → Lookup) (sched : Scheduler.State) (name : CStr) (args : List CStr) : Prop :=
  ∃ r, Runs T name args r ∧ ∀ P ∈ r, Room E sched P

/-- The path comes to a file that is not all there: a script without an end of its first line, or a
binary that is cut off or has no size. -/
inductive Strays (T : CStr → Lookup) (I : Scheduler.Image) : CStr → List CStr → Prop
  | cut {name : CStr} {args : List CStr} {bytes : List UInt8} (hfile : T name = .file bytes)
      (hnone : content bytes = none) : Strays T I name args
  | huge {name : CStr} {args : List CStr} {bytes code : List UInt8} {bss entry : Nat}
      (hfile : T name = .file bytes) (hbinary : content bytes = some (.binary code bss entry))
      (hsize : wordSize ≤ Program.size I ⟨code, bss, entry, args⟩) : Strays T I name args
  | script {name interpreter : CStr} {args : List CStr} {bytes : List UInt8}
      (hfile : T name = .file bytes) (hscript : content bytes = some (.script interpreter))
      (hrest : Strays T I interpreter (interpreter :: args)) : Strays T I name args

-- ---------------------------------------------------------------------------
-- Memory
-- ---------------------------------------------------------------------------

/-- Where a block of `n` bytes goes. -/
def Env.place (E : Env) (used : List (Nat × Nat)) (n : Nat) : Nat := E.heap used n

/-- The blocks of `kalloc` are apart from those in use, and from what is not the heap's. -/
structure HeapAside (E : Env) (still : Set Nat) : Prop where
  still : ∀ used n, ∀ a ∈ still, a < E.place used n ∨ E.place used n + n ≤ a
  apart : ∀ used n, ∀ b ∈ used, b.1 + b.2 ≤ E.place used n ∨ E.place used n + n ≤ b.1

/-- What `kalloc` leaves alone. -/
def Spared (still : Set Nat) (used : List (Nat × Nat)) : Set Nat :=
  {a | a ∈ still ∨ ∃ b ∈ used, b.1 ≤ a ∧ a < b.1 + b.2}

/-- The text of an argument, where `kalloc` leaves it alone. -/
structure ArgAt (still : Set Nat) (s : State) (p : Nat) (arg : CStr) : Prop where
  text   : s.fs.mem.slice p (arg.chars.length + 1) = arg.chars ++ [0]
  spared : ∀ i ≤ arg.chars.length, p + i ∈ Spared still s.used

/-- A call in a state of the file system that is `I`, with the texts of its arguments in memory. -/
structure Poised (still : Set Nat) (I : Fs.State → Prop) (c : Call) (args : List CStr) : Prop where
  fs   : I c.state.fs
  args : List.Forall₂ (ArgAt still c.state) c.argv args

section Memory

variable {E : Env} {still : Set Nat} {s s' : State} {p : Nat} {arg : CStr}

/-- What was spared with one block more was spared before. -/
theorem spared_cons {used : List (Nat × Nat)} (b : Nat × Nat) {a : Nat} (ha : a ∈ Spared still used) :
    a ∈ Spared still (b :: used) :=
  ha.imp_right fun ⟨b', hb', hin⟩ => ⟨b', List.mem_cons_of_mem _ hb', hin⟩

/-- What is spared is not in a new block. -/
theorem HeapAside.outside (h : HeapAside E still) {used : List (Nat × Nat)} (n : Nat) {a : Nat}
    (ha : a ∈ Spared still used) : a < E.place used n ∨ E.place used n + n ≤ a := by
  rcases ha with ha | ⟨b, hb, hlo, hhi⟩
  · exact h.still used n a ha
  · have hapart := h.apart used n b hb
    omega

/-- A new block is not touched by what is spared. -/
theorem ArgAt.keep (h : ArgAt still s p arg) (hused : ∀ a ∈ Spared still s.used, a ∈ Spared still s'.used)
    (hmem : ∀ a ∈ Spared still s.used, s'.fs.mem a = s.fs.mem a) : ArgAt still s' p arg := by
  refine ⟨(Memory.slice_congr fun i hi => hmem _ (h.spared i (by omega))).trans h.text, fun i hi => ?_⟩
  exact hused _ (h.spared i hi)

/-- The arguments of `uspawn` are the texts. -/
theorem args_settle {argv : List Ptr} {args : List CStr} (h : List.Forall₂ (ArgAt still s) argv args) :
    Settles (fun k => argv.mapM (Fs.strAt s.fs.mem k)) args := by
  induction h with
  | nil => exact settles_of_eq fun k => rfl
  | @cons p arg argv args hhead _ ih =>
    have hfirst : Settles (fun k => Fs.strAt s.fs.mem k p) arg :=
      ⟨arg.chars.length + 1, fun k hk => Fs.strAt_of_slice hhead.text hk⟩
    have hrest : Settles (fun k => (argv.mapM (Fs.strAt s.fs.mem k)).bind fun args => some (arg :: args))
        (arg :: args) := ih.bind (settles_of_eq fun k => rfl)
    refine (congrArg (Settles · (arg :: args)) (funext fun k => List.mapM_cons)).mpr ?_
    exact hfirst.bind hrest

end Memory

-- ---------------------------------------------------------------------------
-- A file in its buffer
-- ---------------------------------------------------------------------------

section Buffer

variable {E : Env} {m : Memory} {buf : Nat} {bytes : List UInt8}

/-- A field of the header is read from the bytes of the file. -/
theorem get_file {o n : Nat} (h : o + n ≤ bytes.length) :
    (m.blit buf bytes).get n (buf + o) = fromLE ((bytes.drop o).take n) :=
  congrArg fromLE (Memory.slice_blit_within h)

/-- Whether a buffer holds a script depends on the bytes of the file. -/
theorem isScript_file :
    isScript (m.blit buf bytes) buf bytes.length ↔ bytes.length > 2 ∧ bytes.take 2 = [35, 33] := by
  refine and_congr_right ?_
  intro hlen
  obtain ⟨a, b, rest, rfl⟩ : ∃ a b rest, bytes = a :: b :: rest := by
    match bytes, hlen with
    | a :: b :: rest, _ => exact ⟨a, b, rest, rfl⟩
  have ha : m.blit buf (a :: b :: rest) buf = a := Memory.blit_inside (i := 0) (by simp)
  have hb : m.blit buf (a :: b :: rest) (buf + 1) = b := Memory.blit_inside (by simp)
  have htake : (a :: b :: rest).take 2 = [a, b] := rfl
  rw [ha, hb, htake, List.cons.injEq, List.cons.injEq, and_iff_left rfl]

/-- Whether a buffer is marked depends on the bytes of the file too. -/
theorem marked_file : Marked (m.blit buf bytes) buf bytes.length ↔
    bytes.length > 4 ∧ fromLE (bytes.take 4) = fbeMark := by
  refine and_congr_right ?_
  intro hlen
  have hget : (m.blit buf bytes).get 4 (buf + 0) = fromLE ((bytes.drop 0).take 4) := get_file (by omega)
  rw [List.drop_zero] at hget
  rw [← hget]
  rfl

/-- The header of a binary that is all there. -/
theorem fbeHdr_file (m : Memory) (buf : Nat) (h : 32 ≤ bytes.length) :
    (fbeHdr (m.blit buf bytes) buf).codeSize = fromLE ((bytes.drop 8).take 8) ∧
      (fbeHdr (m.blit buf bytes) buf).bssSize = fromLE ((bytes.drop 16).take 8) ∧
      (fbeHdr (m.blit buf bytes) buf).entry = fromLE ((bytes.drop 24).take 8) :=
  ⟨get_file (by omega), get_file (by omega), get_file (by omega)⟩

/-- The scan from `i` on stops at the first byte that ends a name. -/
theorem scan_stops {i j : Nat} (hij : i ≤ j) (hj : j < 0x80000000) (hend : EndsName (m (buf + j)))
    (hnot : ∀ l, i ≤ l → l < j → ¬ EndsName (m (buf + l))) {k : Nat} (hk : j - i < k) :
    (scan m buf k i).2 = some (j : Int) := by
  obtain ⟨k, rfl⟩ : ∃ n, k = n + 1 := ⟨k - 1, by omega⟩
  induction k generalizing i with
  | zero =>
    obtain rfl : i = j := by omega
    rw [scan, byteAt_natCast, if_pos hend]
  | succ k ih =>
    rw [scan, byteAt_natCast]
    by_cases heq : i = j
    · subst heq
      rw [if_pos hend]
    · rw [if_neg (hnot i le_rfl (by omega)), succInt_natCast (by omega)]
      exact ih (by omega) (fun l hl hlj => hnot l (by omega) hlj) (by omega)

/-- What `content` says of a script. -/
theorem content_script {interpreter : CStr} (h : content bytes = some (.script interpreter)) :
    (bytes.length > 2 ∧ bytes.take 2 = [35, 33]) ∧ interpreter.chars = firstLine bytes ∧
      2 + (firstLine bytes).length < bytes.length ∧ 2 + (firstLine bytes).length < 0x80000000 := by
  rw [content] at h
  split at h
  next hmark =>
    split at h
    next hends =>
      obtain rfl := Content.script.inj (Option.some.inj h)
      refine ⟨hmark, ?_, hends⟩
      -- there is no terminator in the line
      refine List.takeWhile_eq_self_iff.mpr ?_
      intro c hc
      have hline := List.mem_takeWhile_imp hc
      simp only [EndsName, not_or, decide_eq_true_eq] at hline ⊢
      exact hline.2
    next => cases h
  next =>
    split at h
    · split at h <;> cases h
    · cases h

/-- What the content of a binary says of its bytes. -/
theorem content_binary {code : List UInt8} {bss entry : Nat}
    (h : content bytes = some (.binary code bss entry)) :
    ¬ (bytes.length > 2 ∧ bytes.take 2 = [35, 33]) ∧
      (bytes.length > 4 ∧ fromLE (bytes.take 4) = fbeMark) ∧
      32 + fromLE ((bytes.drop 8).take 8) ≤ bytes.length ∧
      code = (bytes.drop 32).take (fromLE ((bytes.drop 8).take 8)) ∧
      bss = fromLE ((bytes.drop 16).take 8) ∧ entry = fromLE ((bytes.drop 24).take 8) := by
  rw [content] at h
  split at h
  · split at h <;> cases h
  next hnot =>
    split at h
    next hmark =>
      split at h
      next hsize =>
        obtain ⟨rfl, rfl, rfl⟩ := Content.binary.inj (Option.some.inj h)
        exact ⟨hnot, hmark, hsize, rfl, rfl, rfl⟩
      next => cases h
    next => cases h

/-- What is neither a script nor a binary. -/
theorem content_other (h : content bytes = some .other) :
    ¬ (bytes.length > 2 ∧ bytes.take 2 = [35, 33]) ∧
      ¬ (bytes.length > 4 ∧ fromLE (bytes.take 4) = fbeMark) := by
  rw [content] at h
  split at h
  · split at h <;> cases h
  next hnot =>
    split at h
    · split at h <;> cases h
    next hmark => exact ⟨hnot, hmark⟩

/-- The line in memory, with the byte that ends it. -/
theorem firstLine_slice (m : Memory) (buf : Nat) (h : 2 + (firstLine bytes).length < bytes.length) :
    ∃ c, EndsName c ∧ (m.blit buf bytes).slice (buf + 2) ((firstLine bytes).length + 1) =
      firstLine bytes ++ [c] := by
  let p : UInt8 → Bool := fun c => ¬ EndsName c
  have hsplit : firstLine bytes ++ (bytes.drop 2).dropWhile p = bytes.drop 2 :=
    List.takeWhile_append_dropWhile
  have hne : (bytes.drop 2).dropWhile p ≠ [] := by
    intro hnil
    rw [hnil, List.append_nil] at hsplit
    have hlen := congrArg List.length hsplit
    rw [List.length_drop] at hlen
    omega
  obtain ⟨c, rest, hrest⟩ := List.exists_cons_of_ne_nil hne
  refine ⟨c, ?_, ?_⟩
  · have hc := List.head_dropWhile_not p hne
    simpa only [hrest, List.head_cons, p, decide_eq_false_iff_not, not_not] using hc
  · have hline : firstLine bytes ++ c :: rest = (firstLine bytes ++ [c]) ++ rest := by
      rw [List.append_assoc, List.singleton_append]
    have htake : (firstLine bytes).length + 1 = (firstLine bytes ++ [c]).length := by
      rw [List.length_append, List.length_singleton]
    rw [Memory.slice_blit_within (by omega), ← hsplit, hrest, hline, htake, List.take_left]

/-- The scan of a script stops at the end of its first line. -/
theorem scan_file (h : 2 + (firstLine bytes).length < bytes.length)
    (hint : 2 + (firstLine bytes).length < 0x80000000) {k : Nat} (hk : (firstLine bytes).length < k) :
    (scan (m.blit buf bytes) buf k 2).2 = some ((2 + (firstLine bytes).length : Nat) : Int) := by
  obtain ⟨c, hc, hslice⟩ := firstLine_slice m buf h
  have hat : ∀ i ≤ (firstLine bytes).length,
      (firstLine bytes ++ [c])[i]? = some (m.blit buf bytes (buf + (2 + i))) := by
    intro i hi
    rw [← hslice, Memory.slice_getElem? (by omega), Nat.add_assoc]
  refine scan_stops (Nat.le_add_right ..) hint ?_ ?_ (by omega)
  · have hlast := hat _ le_rfl
    rw [List.getElem?_concat_length] at hlast
    rwa [← Option.some.inj hlast]
  · intro l hl hlt
    obtain ⟨i, rfl⟩ := Nat.exists_eq_add_of_le hl
    have hin := hat i (by omega)
    rw [List.getElem?_append_left (by omega)] at hin
    have hmem := List.mem_takeWhile_imp (List.mem_of_getElem? hin)
    simpa only [decide_eq_true_eq] using hmem

/-- The name is cut off where the line ends. -/
theorem cut_slice (h : 2 + (firstLine bytes).length < bytes.length) :
    Memory.slice (Function.update (m.blit buf bytes) (buf + (2 + (firstLine bytes).length)) 0) (buf + 2)
      ((firstLine bytes).length + 1) = firstLine bytes ++ [0] := by
  obtain ⟨c, -, hslice⟩ := firstLine_slice m buf h
  rw [Memory.slice_append] at hslice ⊢
  obtain ⟨hline, -⟩ := List.append_inj hslice (Memory.slice_length ..)
  refine congrArg₂ (· ++ ·) (Eq.trans (Memory.slice_congr fun i hi => ?_) hline) ?_
  · exact Function.update_of_ne (by omega) ..
  · rw [Nat.add_assoc]
    exact congrArg (fun b => [b]) (Function.update_self ..)

end Buffer

-- ---------------------------------------------------------------------------
-- Loading
-- ---------------------------------------------------------------------------

section Load

variable {E : Env} {cd : Ptr} {still : Set Nat} {T : CStr → Lookup} {I : Fs.State → Prop} {c : Call}
  {bytes : List UInt8}

/-- Where there is nothing, `fexec` finds nothing. -/
theorem load_nothing (hpres : Presents E.fs cd still T I) (hfs : I c.state.fs) (hT : T c.fn = .nothing) :
    ∃ s, Settles (fun k => load E k cd c) (.nothing s) := by
  obtain ⟨fs', hretrieve⟩ := hpres.nothing _ _ hfs hT
  exact ⟨{ c.state with fs := fs' }, hretrieve.bind (settles_of_eq fun k => rfl)⟩

/-- Where the lookup does not return, `fexec` finds nothing either. -/
theorem load_stuck (hpres : Presents E.fs cd still T I) (hfs : I c.state.fs) (hT : T c.fn = .stuck)
    (found : Found) : ¬ Settles (fun k => load E k cd c) found := by
  rintro ⟨n, hn⟩
  obtain ⟨r, hr, -⟩ := Option.bind_eq_some_iff.mp (hn n le_rfl)
  rcases hpres.stuck _ _ hfs hT with hnever | ⟨fs', x, ⟨m, hm⟩, hne, hsize⟩
  · exact hnever r (settles_of_below (fun hle => Fs.fsRetrieve_below E.fs hle _ _ _) hr)
  · obtain ⟨r, hr, hrest⟩ := Option.bind_eq_some_iff.mp (hn _ (Nat.le_max_left n m))
    obtain rfl := Option.some.inj ((hm _ (Nat.le_max_right n m)).symm.trans hr)
    dsimp only at hrest
    rw [if_neg hne, hsize] at hrest
    cases hrest

/-- The buffer of a file. -/
def loadedFile (E : Env) (c : Call) (fs : Fs.State) (bytes : List UInt8) : Buffer where
  buf   := E.place c.state.used bytes.length
  size  := bytes.length
  argv  := c.argv
  state :=
    { fs := { fs with mem := c.state.fs.mem.blit (E.place c.state.used bytes.length) bytes }
      sched := c.state.sched
      used := (E.place c.state.used bytes.length, bytes.length) :: c.state.used }

/-- A file is loaded, if there is something in it. -/
theorem load_found (hpres : Presents E.fs cd still T I) (hfs : I c.state.fs) (hT : T c.fn = .file bytes) :
    ∃ fs, I fs ∧ fs.mem = c.state.fs.mem ∧ Settles (fun k => load E k cd c)
      (if bytes.length > 1 then .loaded (loadedFile E c fs bytes)
        else .nothing { c.state with fs := fs }) := by
  obtain ⟨fs₁, x, fs₂, hretrieve, hne, hsize, hread, hI, hmem⟩ := hpres.file _ _ _ hfs hT
  refine ⟨fs₂, hI, hmem, hretrieve.bind ?_⟩
  refine (congrArg (Settles · _) (funext fun k => if_neg hne)).mpr (hsize.bind ?_)
  by_cases hlong : bytes.length > 1
  · rw [if_pos hlong]
    refine (congrArg (Settles · _) (funext fun k => if_pos hlong)).mpr (hread.bind ?_)
    rw [loadedFile, ← hmem]
    exact settles_of_eq fun k => rfl
  · rw [if_neg hlong]
    exact settles_of_eq fun k => if_neg hlong

end Load

-- ---------------------------------------------------------------------------
-- What one call comes to
-- ---------------------------------------------------------------------------

section Calls

variable {E : Env} {cd : Ptr} {still : Set Nat} {T : CStr → Lookup} {I : Fs.State → Prop} {c : Call}
  {args : List CStr} {bytes : List UInt8}

/-- There is no next call then. -/
theorem not_next_of_nothing {s : State} (h : Settles (fun k => load E k cd c) (.nothing s)) (c' : Call) :
    ¬ Next E cd c c' := by
  rintro ⟨B, hB, -⟩
  cases h.unique hB

/-- There is no next call behind a file that is no script. -/
theorem not_next_of_plain {B : Buffer} (h : Settles (fun k => load E k cd c) (.loaded B))
    (hplain : ¬ isScript B.mem B.buf B.size) (c' : Call) : ¬ Next E cd c c' := by
  rintro ⟨B', hB', hscript, -⟩
  obtain rfl := Found.loaded.inj (h.unique hB')
  exact hplain hscript

/-- A file that is neither is loaded, and that is all. -/
theorem call_other (hpres : Presents E.fs cd still T I) (hfs : I c.state.fs) (hT : T c.fn = .file bytes)
    (hother : content bytes = some .other) : GetsThrough E cd c ∧ ∀ c', ¬ Next E cd c c' := by
  obtain ⟨hscript, hmark⟩ := content_other hother
  obtain ⟨fs, -, -, hload⟩ := load_found hpres hfs hT
  by_cases hlong : bytes.length > 1
  · rw [if_pos hlong] at hload
    have hplain : ¬ isScript (loadedFile E c fs bytes).mem (loadedFile E c fs bytes).buf
        (loadedFile E c fs bytes).size := fun h => hscript (isScript_file.mp h)
    have hunmarked : ¬ Marked (loadedFile E c fs bytes).state.fs.mem (loadedFile E c fs bytes).buf
        (loadedFile E c fs bytes).size := fun h => hmark (marked_file.mp h)
    refine ⟨.inr ⟨_, hload, ?_⟩, not_next_of_plain hload hplain⟩
    rw [if_neg hplain]
    exact ⟨_, settles_of_eq fun k => (bexec_unmarked hunmarked k).2⟩
  · rw [if_neg hlong] at hload
    exact ⟨.inl ⟨_, hload⟩, not_next_of_nothing hload⟩

/-- A binary is spawned with the texts of the arguments. -/
theorem call_binary (hheap : HeapAside E still) (hpres : Presents E.fs cd still T I)
    (hc : Poised still I c args) (hT : T c.fn = .file bytes) {code : List UInt8} {bss entry : Nat}
    (hbinary : content bytes = some (.binary code bss entry)) :
    ∃ B : Buffer, Settles (fun k => load E k cd c) (.loaded B) ∧ ¬ isScript B.mem B.buf B.size ∧
      ∃ n, ∀ k, n ≤ k → (bexec E k B.buf B.size B.argv B.state).2 =
        (Scheduler.uspawn E.rgn E.image code bss entry args c.state.sched).toOption.map fun r =>
          ({ B.state with sched := r.1 }, r.2) := by
  obtain ⟨hscript, hmark, hsize, hcode, hbss, hentry⟩ := content_binary hbinary
  obtain ⟨fs, -, hmem, hload⟩ := load_found hpres hc.fs hT
  rw [if_pos (by omega)] at hload
  have hmarked : Marked (loadedFile E c fs bytes).state.fs.mem (loadedFile E c fs bytes).buf
      (loadedFile E c fs bytes).size := marked_file.mpr hmark
  obtain ⟨hcsz, hbsz, hstart⟩ := fbeHdr_file c.state.fs.mem (E.place c.state.used bytes.length)
    (show 32 ≤ bytes.length by omega)
  -- the texts of the arguments are still there
  have hargs : List.Forall₂ (ArgAt still (loadedFile E c fs bytes).state) c.argv args := by
    refine hc.args.imp fun p arg harg => harg.keep (fun a ha => spared_cons _ ha) fun a ha => ?_
    exact Memory.blit_outside (hheap.outside _ ha)
  obtain ⟨n, hn⟩ := args_settle hargs
  refine ⟨_, hload, fun h => hscript (isScript_file.mp h), n, fun k hk => ?_⟩
  have hslice : (loadedFile E c fs bytes).state.fs.mem.slice ((loadedFile E c fs bytes).buf + 32)
      (fromLE ((bytes.drop 8).take 8)) = code := by
    rw [hcode]
    exact Memory.slice_blit_within (by omega)
  have hhdr : fbeHdr (loadedFile E c fs bytes).state.fs.mem (loadedFile E c fs bytes).buf =
      fbeHdr (c.state.fs.mem.blit (E.place c.state.used bytes.length) bytes)
        (E.place c.state.used bytes.length) := rfl
  rw [bexec, if_pos hmarked.1, if_pos hmarked.2]
  simp only [spawnBinary, hhdr, hcsz, hbsz, hstart, hslice, ← hbss, ← hentry]
  rw [show (loadedFile E c fs bytes).argv.mapM (Fs.strAt (loadedFile E c fs bytes).state.fs.mem k) =
    some args from hn k hk, Option.bind_eq_bind, Option.bind_some, Option.map_eq_bind]
  rfl

/-- The call that a script in the buffer leads to, when its first line ends at `j`. -/
def Buffer.next (E : Env) (B : Buffer) (j : Nat) (name : CStr) : Call where
  fn    := name
  argv  := (B.buf + 2) :: B.argv
  state := B.cut j (B.withNargv E).1

/-- `fexec` stores one zero into the buffer. -/
theorem Buffer.next_mem (B : Buffer) (j : Nat) (name : CStr) :
    (B.next E j name).state.fs.mem = Function.update B.mem (B.buf + j) 0 := by
  have haddr : ((B.buf : Int) + (j : Int)).toNat = B.buf + j := by omega
  rw [← haddr]
  rfl

/-- The name of the interpreter is the first line of the file. -/
theorem interpreter_settles {B : Buffer} {m : Memory} {interpreter : CStr} (hmem : B.mem = m.blit B.buf bytes)
    (hname : interpreter.chars = firstLine bytes) (hlen : 2 + (firstLine bytes).length < bytes.length)
    (hint : 2 + (firstLine bytes).length < 0x80000000) :
    (B.next E (2 + (firstLine bytes).length) interpreter).state.fs.mem.slice (B.buf + 2)
        (interpreter.chars.length + 1) = interpreter.chars ++ [0] ∧
      Settles (fun k => B.interpreter E k) (B.next E (2 + (firstLine bytes).length) interpreter) := by
  have htext : (B.next E (2 + (firstLine bytes).length) interpreter).state.fs.mem.slice (B.buf + 2)
      (interpreter.chars.length + 1) = interpreter.chars ++ [0] := by
    rw [Buffer.next_mem, hmem, hname]
    exact cut_slice hlen
  refine ⟨htext, (firstLine bytes).length + 1, ?_⟩
  intro k hk
  have hscan : (scan B.mem B.buf k 2).2 = some ((2 + (firstLine bytes).length : Nat) : Int) := by
    rw [hmem]
    exact scan_file hlen hint hk
  have hstr := Fs.strAt_of_slice htext (show interpreter.chars.length < k by rw [hname]; exact hk)
  exact Option.bind_eq_some_iff.mpr ⟨_, hscan, Option.bind_eq_some_iff.mpr ⟨interpreter, hstr, rfl⟩⟩

/-- The call for the interpreter of a script. -/
theorem call_script (hheap : HeapAside E still) (hpres : Presents E.fs cd still T I)
    (hc : Poised still I c args) (hT : T c.fn = .file bytes) {interpreter : CStr}
    (hscript : content bytes = some (.script interpreter)) :
    GetsThrough E cd c ∧ ∃ c', Next E cd c c' ∧ c'.fn = interpreter ∧
      Poised still I c' (interpreter :: args) ∧ c'.state.sched = c.state.sched := by
  obtain ⟨hmark, hname, hlen, hint⟩ := content_script hscript
  obtain ⟨fs, hfs, hmem, hload⟩ := load_found hpres hc.fs hT
  rw [if_pos (by omega)] at hload
  have hisScript : isScript (loadedFile E c fs bytes).mem (loadedFile E c fs bytes).buf
      (loadedFile E c fs bytes).size := isScript_file.mpr hmark
  obtain ⟨htext, hinterp⟩ := interpreter_settles (E := E) (B := loadedFile E c fs bytes)
    (m := c.state.fs.mem) rfl hname hlen hint
  have hnext := Buffer.next_mem (E := E) (loadedFile E c fs bytes) (2 + (firstLine bytes).length) interpreter
  -- outside of the new blocks nothing is stored
  have hsame : ∀ a ∈ Spared still c.state.used,
      ((loadedFile E c fs bytes).next E (2 + (firstLine bytes).length) interpreter).state.fs.mem a =
        c.state.fs.mem a := by
    intro a ha
    have hout := hheap.outside bytes.length ha
    rw [hnext, Function.update_of_ne]
    · exact Memory.blit_outside hout
    · show a ≠ E.place c.state.used bytes.length + (2 + (firstLine bytes).length)
      omega
  refine ⟨.inr ⟨_, hload, ?_⟩, _, ⟨_, hload, hisScript, hinterp⟩, rfl, ⟨?_, .cons ⟨htext, ?_⟩ ?_⟩, rfl⟩
  · rw [if_pos hisScript]
    exact ⟨_, hinterp⟩
  · exact hpres.aside fs _ hfs fun a ha => (hsame a (.inl ha)).trans (by rw [hmem])
  · intro i hi
    refine .inr ⟨(E.place c.state.used bytes.length, bytes.length),
      List.mem_cons_of_mem _ List.mem_cons_self, ?_, ?_⟩
    · show E.place c.state.used bytes.length ≤ E.place c.state.used bytes.length + 2 + i
      omega
    · show E.place c.state.used bytes.length + 2 + i < E.place c.state.used bytes.length + bytes.length
      rw [hname] at hi
      omega
  · exact hc.args.imp fun p arg harg => harg.keep (fun a ha => spared_cons _ (spared_cons _ ha)) hsame

end Calls

-- ---------------------------------------------------------------------------
-- Which calls return
-- ---------------------------------------------------------------------------

section Halting

variable {E : Env} {cd : Ptr} {still : Set Nat} {T : CStr → Lookup} {I : Fs.State → Prop}

/-- `uspawn` returns for a program that has room. -/
theorem Room.spawned {sched : Scheduler.State} {l : List Ptr} {P : Program} (h : Room E sched P)
    (hsched : Scheduler.Base sched l) :
    ∃ r, (Scheduler.uspawn E.rgn E.image P.code P.bss P.entry P.args sched).toOption = some r := by
  have hreturns := Scheduler.uspawn_spec (E := E.rgn) (I := E.image) hsched h.size P.entry
  have hpages := h.pages
  cases hcall : Scheduler.uspawn E.rgn E.image P.code P.bss P.entry P.args sched with
  | ok r => exact ⟨r, rfl⟩
  | error f =>
    rw [hcall] at hreturns hpages
    obtain rfl : f = .noPages := hreturns
    exact absurd rfl hpages

/-- By induction on the chain of interpreters. -/
theorem terminates_of_halts (hheap : HeapAside E still) (hpres : Presents E.fs cd still T I) {c : Call}
    {args : List CStr} {l : List Ptr} (hc : Poised still I c args) (hsched : Scheduler.Base c.state.sched l)
    (h : Halts E T c.state.sched c.fn args) : Terminates E cd c := by
  obtain ⟨r, hruns, hroom⟩ := h
  generalize hname : c.fn = name at hruns
  induction hruns generalizing c with
  | nothing hnothing =>
    obtain ⟨s, hload⟩ := load_nothing hpres hc.fs (hname ▸ hnothing)
    exact terminates_of_next (.inl ⟨s, hload⟩) fun c' hc' => absurd hc' (not_next_of_nothing hload c')
  | other hfile hother =>
    obtain ⟨hthrough, hnot⟩ := call_other hpres hc.fs (hname ▸ hfile) hother
    exact terminates_of_next hthrough fun c' hc' => absurd hc' (hnot c')
  | @binary name args bytes code bss entry hfile hbinary =>
    obtain ⟨B, hload, hplain, n, hn⟩ := call_binary hheap hpres hc (hname ▸ hfile) hbinary
    obtain ⟨r, hr⟩ := (hroom ⟨code, bss, entry, args⟩ rfl).spawned hsched
    refine terminates_of_next (.inr ⟨B, hload, ?_⟩) fun c' hc' =>
      absurd hc' (not_next_of_plain hload hplain c')
    rw [if_neg hplain]
    exact ⟨_, n, fun k hk => (hn k hk).trans (congrArg (Option.map _) hr)⟩
  | script hfile hscript _ ih =>
    obtain ⟨hthrough, c', hnext, hfn, hc', hsame⟩ := call_script hheap hpres hc (hname ▸ hfile) hscript
    refine terminates_of_next hthrough ?_
    intro c₂ hc₂
    obtain rfl := hnext.unique hc₂
    exact ih hc' (hsame ▸ hsched) (hsame ▸ hroom) hfn

/-- By induction on the depth of the calls. -/
theorem halts_of_some (hheap : HeapAside E still) (hpres : Presents E.fs cd still T I) {k d : Nat} {c : Call}
    {args : List CStr} (hc : Poised still I c args) {r : State × Ptr} (h : (fexec E k cd d c).2 = some r) :
    Halts E T c.state.sched c.fn args ∨ Strays T E.image c.fn args := by
  induction d generalizing c args r with
  | zero => cases h
  | succ d ih =>
    obtain ⟨hthrough, hrest⟩ := fexec_some h
    cases hT : T c.fn with
    | stuck =>
      rcases hthrough with ⟨s, hload⟩ | ⟨B, hload, -⟩
      · exact absurd hload (load_stuck hpres hc.fs hT _)
      · exact absurd hload (load_stuck hpres hc.fs hT _)
    | nothing => exact .inl ⟨none, .nothing hT, fun P hP => nomatch hP⟩
    | file bytes =>
      cases hcontent : content bytes with
      | none => exact .inr (.cut hT hcontent)
      | some what =>
        cases what with
        | other => exact .inl ⟨none, .other hT hcontent, fun P hP => nomatch hP⟩
        | script interpreter =>
          obtain ⟨-, c', hnext, hfn, hc', hsame⟩ := call_script hheap hpres hc hT hcontent
          obtain ⟨r', hr'⟩ := hrest c' hnext
          rcases ih hc' hr' with ⟨P, hruns, hroom⟩ | hstrays
          · rw [hfn] at hruns
            rw [hsame] at hroom
            exact .inl ⟨P, .script hT hcontent hruns, hroom⟩
          · rw [hfn] at hstrays
            exact .inr (.script hT hcontent hstrays)
        | binary code bss entry =>
          by_cases hsize : wordSize ≤ Program.size E.image ⟨code, bss, entry, args⟩
          · exact .inr (.huge hT hcontent hsize)
          · refine .inl ⟨_, .binary hT hcontent, ?_⟩
            intro P hP
            obtain rfl := Option.some.inj hP
            refine ⟨by omega, ?_⟩
            obtain ⟨B, hload, hplain, n, hn⟩ := call_binary hheap hpres hc hT hcontent
            -- `bexec` returned, so there was a page for everything
            rcases hthrough with ⟨s, hload'⟩ | ⟨B', hload', hbexec⟩
            · cases hload.unique hload'
            · obtain rfl := Found.loaded.inj (hload.unique hload')
              rw [if_neg hplain] at hbexec
              obtain ⟨x, m, hm⟩ := hbexec
              have hcall := (hn _ (Nat.le_max_left n m)).symm.trans (hm _ (Nat.le_max_right n m))
              intro hnone
              rw [hnone] at hcall
              cases hcall

/-- If `fexec` returns, the chain of interpreters ends, or comes to a file that `fexec` leaves the
block for. -/
theorem halts_of_terminates (hheap : HeapAside E still) (hpres : Presents E.fs cd still T I) {c : Call}
    {args : List CStr} (hc : Poised still I c args) (h : Terminates E cd c) :
    Halts E T c.state.sched c.fn args ∨ Strays T E.image c.fn args := by
  obtain ⟨r, n, hn⟩ := h
  exact halts_of_some hheap hpres hc (hn n le_rfl)

end Halting

end Frosk.Exec
