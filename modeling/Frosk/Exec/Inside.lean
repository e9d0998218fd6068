import Mathlib.Tactic
import Frosk.Scheduler.Spawn
import Frosk.Exec.Termination

/-!
# Execution of files: accesses to the buffer

`bexec` goes by the mark at the start of a buffer and takes the rest of the header and the
code from wherever the header says; `fexec` looks for the end of a `#!` line until it finds
one.

* `stays_inside_iff` — every access is to the bytes of the buffer, and what is no whole
  binary is not spawned, exactly if every marked buffer is a whole binary and every script
  has an end of its first line that an `int` can count to.
* `unended_script` — a script of three bytes.
-/

namespace Frosk.Exec

open Lib

def Touch.Inside (t : Touch) : Prop := 0 ≤ t.index ∧ t.index < t.size

instance (t : Touch) : Decidable t.Inside := inferInstanceAs (Decidable (_ ∧ _))

/-- The buffer is taken for a binary. -/
def Marked (m : Memory) (buf : Ptr) (size : Nat) : Prop := size > 4 ∧ m.get 4 buf = fbeMark

/-- Header and code lie in the buffer, and the size in memory is a size. -/
structure Whole (m : Memory) (buf : Ptr) (size : Nat) : Prop where
  header : 32 ≤ size
  code   : 32 + (fbeHdr m buf).codeSize ≤ size
  image  : (fbeHdr m buf).codeSize + (fbeHdr m buf).bssSize < wordSize

/-- The name of the interpreter ends in the buffer. -/
def Ended (m : Memory) (buf : Ptr) (size : Nat) : Prop :=
  ∃ i : Nat, (2 ≤ i ∧ i < size ∧ i < 0x80000000) ∧ EndsName (m (buf + i))

/-- What a loaded file must be. -/
def Buffer.Sound (B : Buffer) : Prop :=
  if isScript B.mem B.buf B.size then Ended B.mem B.buf B.size
  else Marked B.mem B.buf B.size → Whole B.mem B.buf B.size

/-- A buffer that is loaded by a call, or by one that it leads to. -/
def Loads (E : Env) (cd : Ptr) (c : Call) (B : Buffer) : Prop :=
  ∃ c', Leads E cd c c' ∧ Settles (fun k => load E k cd c') (.loaded B)

/-- What is no whole binary is not spawned. -/
def Refuses (E : Env) (buf : Ptr) (size : Nat) (argv : List Ptr) (s : State) : Prop :=
  ¬ Whole s.fs.mem buf size → ∀ k, (bexec E k buf size argv s).2 = some (s, NULL)

-- ---------------------------------------------------------------------------
-- Binaries
-- ---------------------------------------------------------------------------

/-- What lies in the buffer is touched inside. -/
theorem touches_inside {size a n : Nat} (h : a + n ≤ size) : ∀ t ∈ touches size a n, t.Inside := by
  intro t ht
  obtain ⟨j, hj, rfl⟩ := List.mem_map.mp ht
  rw [List.mem_range] at hj
  exact ⟨Int.natCast_nonneg _, by show ((a + j : Nat) : Int) < size; omega⟩

/-- A process is not `NULL`. -/
theorem uspawn_ne_null {E : Regions.Env} {I : Scheduler.Image} {data : List UInt8} {bsz entry : Nat}
    {argv : List CStr} {s s' : Scheduler.State} {p : Ptr}
    (h : Scheduler.uspawn E I data bsz entry argv s = .ok (s', p)) : p ≠ NULL := by
  rw [Scheduler.uspawn_eq] at h
  obtain ⟨_, -, h⟩ := Regions.bind_eq_ok.mp h
  obtain ⟨_, -, h⟩ := Regions.bind_eq_ok.mp h
  obtain ⟨_, -, h⟩ := Regions.bind_eq_ok.mp h
  obtain ⟨-, rfl⟩ := Prod.mk.inj (Except.ok.inj h)
  exact E.kalloc.ne_null _

section Binary

variable {E : Env} {buf size k : Nat} {argv : List Ptr} {s s' : State} {p : Ptr}

/-- A program that is started has a process. -/
theorem spawnBinary_ne_null (h : spawnBinary E k buf argv s = some (s', p)) : p ≠ NULL := by
  obtain ⟨args, -, h⟩ := Option.bind_eq_some_iff.mp h
  obtain ⟨⟨sched, q⟩, hq, h⟩ := Option.bind_eq_some_iff.mp h
  obtain ⟨-, rfl⟩ := Prod.mk.inj (Option.some.inj h)
  cases hspawn : Scheduler.uspawn E.rgn E.image (s.fs.mem.slice (buf + 32) (fbeHdr s.fs.mem buf).codeSize)
      (fbeHdr s.fs.mem buf).bssSize (fbeHdr s.fs.mem buf).entry args s.sched with
  | error e => simp [hspawn, Except.toOption] at hq
  | ok r =>
    simp only [hspawn, Except.toOption, Option.some.injEq] at hq
    rw [hq] at hspawn
    exact uspawn_ne_null hspawn

/-- A buffer without the mark. -/
theorem bexec_unmarked (h : ¬ Marked s.fs.mem buf size) (k : Nat) :
    (∀ t ∈ (bexec E k buf size argv s).1, t.Inside) ∧ (bexec E k buf size argv s).2 = some (s, NULL) := by
  unfold bexec
  by_cases hsize : size > 4
  · have hmark : ¬ s.fs.mem.get 4 buf = fbeMark := fun hmark => h ⟨hsize, hmark⟩
    rw [if_pos hsize, if_neg hmark]
    exact ⟨touches_inside (by omega), rfl⟩
  · rw [if_neg hsize]
    exact ⟨by simp, rfl⟩

/-- A whole binary. -/
theorem bexec_whole (hm : Marked s.fs.mem buf size) (hw : Whole s.fs.mem buf size) (k : Nat) :
    ∀ t ∈ (bexec E k buf size argv s).1, t.Inside := by
  have hheader := hw.header
  have hcode := hw.code
  unfold bexec
  rw [if_pos hm.1, if_pos hm.2]
  intro t ht
  rw [List.mem_append, List.mem_append] at ht
  rcases ht with (ht | ht) | ht
  · exact touches_inside (by omega) t ht
  · exact touches_inside (by omega) t ht
  · exact touches_inside hcode t ht

/-- What has the mark is spawned. -/
theorem bexec_marked (hm : Marked s.fs.mem buf size) (k : Nat) :
    (bexec E k buf size argv s).2 ≠ some (s, NULL) := by
  unfold bexec
  rw [if_pos hm.1, if_pos hm.2]
  exact fun hnull => spawnBinary_ne_null hnull rfl

/-- `bexec` on any buffer. -/
theorem bexec_inside_iff :
    ((∀ k, ∀ t ∈ (bexec E k buf size argv s).1, t.Inside) ∧ Refuses E buf size argv s) ↔
      (Marked s.fs.mem buf size → Whole s.fs.mem buf size) := by
  constructor
  · rintro ⟨-, hrefuse⟩ hm
    by_contra hw
    exact bexec_marked hm 0 (hrefuse hw 0)
  · intro h
    by_cases hm : Marked s.fs.mem buf size
    · exact ⟨bexec_whole hm (h hm), fun hw => absurd (h hm) hw⟩
    · exact ⟨fun k => (bexec_unmarked hm k).1, fun _ k => (bexec_unmarked hm k).2⟩

end Binary

-- ---------------------------------------------------------------------------
-- Scripts
-- ---------------------------------------------------------------------------

section Scan

variable {m : Memory} {buf : Ptr} {i j : Nat}

theorem byteAt_natCast : byteAt m buf i = m (buf + i) := by
  have haddr : ((buf : Int) + i).toNat = buf + i := by omega
  rw [byteAt, haddr]

theorem succInt_natCast (h : i < 0x7FFFFFFF) : succInt i = (i + 1 : Nat) := by
  unfold succInt
  rw [if_neg (by omega)]
  omega

/-- The scan does not go beyond an end of the name. -/
theorem scan_ended (hij : i ≤ j) (hj : j < 0x80000000) (hend : EndsName (m (buf + j))) (k : Nat) :
    (∀ x ∈ (scan m buf k i).1, (i : Int) ≤ x ∧ x ≤ j) ∧ ∀ x ∈ (scan m buf k i).2, (i : Int) ≤ x ∧ x ≤ j := by
  induction k generalizing i with
  | zero => simp [scan]
  | succ k ih =>
    rw [scan]
    by_cases hi : EndsName (byteAt m buf i)
    · rw [if_pos hi]
      constructor
      · intro x hx
        obtain rfl := List.mem_singleton.mp hx
        omega
      · intro x hx
        obtain rfl := Option.mem_some_iff.mp hx
        omega
    · rw [if_neg hi]
      have hne : i ≠ j := by
        rintro rfl
        exact hi (byteAt_natCast ▸ hend)
      rw [succInt_natCast (by omega)]
      obtain ⟨hread, hstop⟩ := ih (show i + 1 ≤ j by omega)
      constructor
      · intro x hx
        rcases List.mem_cons.mp hx with rfl | hx
        · omega
        · have hx' := hread x hx
          omega
      · intro x hx
        have hx' := hstop x hx
        omega

/-- The scan goes on to `j` if no byte before it ends the name. -/
theorem scan_reaches (hij : i ≤ j) (hj : j < 0x80000000)
    (hnot : ∀ l, i ≤ l → l < j → ¬ EndsName (m (buf + l))) (k : Nat) :
    ∀ x ∈ (scan m buf k j).1, x ∈ (scan m buf (k + (j - i)) i).1 := by
  obtain ⟨n, rfl⟩ := Nat.exists_eq_add_of_le hij
  rw [Nat.add_sub_cancel_left]
  induction n generalizing i with
  | zero => exact fun x hx => hx
  | succ n ih =>
    intro x hx
    have hi : ¬ EndsName (byteAt m buf i) := by
      rw [byteAt_natCast]
      exact hnot i le_rfl (by omega)
    have hrest := ih (i := i + 1) (by omega) (by omega) (fun l hl hl' => hnot l (by omega) (by omega)) x
      (by rwa [Nat.add_assoc, Nat.add_comm 1 n])
    rw [← Nat.add_assoc, scan, if_neg hi, succInt_natCast (by omega)]
    exact List.mem_cons_of_mem _ hrest

/-- The scan touches the byte where it begins. -/
theorem mem_scan (k : Nat) (i : Int) : i ∈ (scan m buf (k + 1) i).1 := by
  rw [scan]
  split
  · exact List.mem_singleton_self i
  · exact List.mem_cons_self ..

end Scan

section Script

variable {B : Buffer}

/-- If a name ends in the buffer, the scan stays inside. -/
theorem scanned_inside (h : Ended B.mem B.buf B.size) (k : Nat) : ∀ t ∈ B.scanned k, t.Inside := by
  obtain ⟨i, ⟨hi, hsize, hint⟩, hend⟩ := h
  obtain ⟨hread, hstop⟩ := scan_ended hi hint hend k
  intro t ht
  obtain ⟨x, hx, rfl⟩ := List.mem_map.mp ht
  have hbound : ((2 : Nat) : Int) ≤ x ∧ x ≤ i := by
    rcases List.mem_append.mp hx with hx | hx
    · exact hread x hx
    · exact hstop x (Option.mem_toList.mp hx)
  exact ⟨by show 0 ≤ x; omega, by show x < B.size; omega⟩

/-- Without an end of the name the scan leaves the buffer, or its index becomes negative. -/
theorem scanned_outside (h : ¬ Ended B.mem B.buf B.size) (hsize : 2 < B.size) :
    ∃ n, ∀ k, n ≤ k → ∃ t ∈ B.scanned k, ¬ t.Inside := by
  have hnot : ∀ j : Nat, j ≤ B.size → j ≤ 0x80000000 → ∀ l, 2 ≤ l → l < j →
      ¬ EndsName (B.mem (B.buf + l)) := by
    intro j hjs hji l hl hlj hend
    exact h ⟨l, ⟨hl, by omega, by omega⟩, hend⟩
  have htouch : ∀ (k : Nat) (x : Int), x ∈ (scan B.mem B.buf k (2 : Nat)).1 → ⟨B.size, x⟩ ∈ B.scanned k := by
    intro k x hx
    exact List.mem_map.mpr ⟨x, List.mem_append_left _ hx, rfl⟩
  by_cases hint : B.size < 0x80000000
  · refine ⟨B.size, fun k hk => ⟨⟨B.size, B.size⟩, htouch k _ ?_, fun h => lt_irrefl _ h.2⟩⟩
    obtain ⟨j, rfl⟩ : ∃ j, k = j + 1 + (B.size - 2) := ⟨k - 1 - (B.size - 2), by omega⟩
    exact scan_reaches (by omega) hint (hnot B.size le_rfl (by omega)) (j + 1) _ (mem_scan j _)
  · refine ⟨0x80000000, fun k hk => ⟨⟨B.size, -0x80000000⟩, htouch k _ ?_, fun h => ?_⟩⟩
    · obtain ⟨j, rfl⟩ : ∃ j, k = j + 2 + (0x7FFFFFFF - 2) := ⟨k - 2 - (0x7FFFFFFF - 2), by omega⟩
      refine scan_reaches (by omega) (by omega) (hnot 0x7FFFFFFF (by omega) (by omega)) (j + 2) _ ?_
      have hlast : ¬ EndsName (byteAt B.mem B.buf (0x7FFFFFFF : Nat)) := by
        rw [byteAt_natCast]
        exact hnot 0x80000000 (by omega) le_rfl _ (by omega) (by omega)
      rw [scan, if_neg hlast]
      exact List.mem_cons_of_mem _ (mem_scan j _)
    · have hneg : (0 : Int) ≤ -0x80000000 := h.1
      omega

end Script

-- ---------------------------------------------------------------------------
-- Runs
-- ---------------------------------------------------------------------------

section Runs

variable {E : Env} {cd : Ptr} {c c' : Call} {B : Buffer} {k d : Nat}

/-- The two bytes of the mark are looked at only if they are there. -/
theorem marks_inside (B : Buffer) : ∀ t ∈ (if B.size > 2 then touches B.size 0 2 else []), t.Inside := by
  split
  · exact touches_inside (by omega)
  · simp

/-- What a later call loads is loaded. -/
theorem loads_of_next (h : Next E cd c c') (hB : Loads E cd c' B) : Loads E cd c B := by
  obtain ⟨c₁, hleads, hload⟩ := hB
  exact ⟨c₁, .head h hleads, hload⟩

/-- All accesses of a call, when everything that it loads is as it must be. -/
theorem fexec_inside (h : ∀ B, Loads E cd c B → B.Sound) : ∀ t ∈ (fexec E k cd d c).1, t.Inside := by
  induction d generalizing c with
  | zero => simp [fexec]
  | succ d ih =>
    rw [fexec]
    cases hload : load E k cd c with
    | none => simp
    | some found =>
      have hsettles := settles_of_below (fun hle => load_below E hle cd c) hload
      cases found with
      | nothing s => simp
      | loaded B =>
        have hB := h B ⟨c, .refl, hsettles⟩
        have hmarks := marks_inside B
        unfold Buffer.Sound at hB
        by_cases hscript : isScript B.mem B.buf B.size
        · rw [if_pos hscript] at hB
          have hscan := scanned_inside hB k
          simp only [if_pos hscript]
          cases hnext : B.interpreter E k with
          | none =>
            intro t ht
            rcases List.mem_append.mp ht with ht | ht
            · exact hmarks t ht
            · exact hscan t ht
          | some c' =>
            have hc' : Next E cd c c' :=
              ⟨B, hsettles, hscript, settles_of_below (fun hle => interpreter_below E hle B) hnext⟩
            have hrest := ih fun B' hB' => h B' (loads_of_next hc' hB')
            intro t ht
            rw [List.mem_append, List.mem_append] at ht
            rcases ht with (ht | ht) | ht
            · exact hmarks t ht
            · exact hscan t ht
            · exact hrest t ht
        · rw [if_neg hscript] at hB
          have hbexec : _ ∧ Refuses E B.buf B.size B.argv B.state := bexec_inside_iff.mpr hB
          simp only [if_neg hscript]
          intro t ht
          rcases List.mem_append.mp ht with ht | ht
          · exact hmarks t ht
          · exact hbexec.1 k t ht

/-- The accesses of a call that `c` leads to are accesses of `c`. -/
theorem touches_of_leads (h : Leads E cd c c') :
    ∃ n, ∀ k, n ≤ k → ∃ j, ∀ d, ∀ t ∈ (fexec E k cd d c').1, t ∈ (fexec E k cd (d + j) c).1 := by
  induction h using Relation.ReflTransGen.head_induction_on with
  | refl => exact ⟨0, fun k _ => ⟨0, fun d t ht => ht⟩⟩
  | @head c c₁ hnext _ ih =>
    obtain ⟨B, ⟨n, hn⟩, hscript, m, hm⟩ := hnext
    obtain ⟨i, hi⟩ := ih
    refine ⟨max (max n m) i, ?_⟩
    intro k hk
    obtain ⟨j, hj⟩ := hi k (by omega)
    have hload : load E k cd c = some (.loaded B) := hn k (by omega)
    have hinterp : B.interpreter E k = some c₁ := hm k (by omega)
    refine ⟨j + 1, ?_⟩
    intro d t ht
    rw [← Nat.add_assoc, fexec, hload]
    simp only [if_pos hscript, hinterp]
    exact List.mem_append_right _ (hj d t ht)

/-- A loaded script whose name does not end is scanned beyond it. -/
theorem fexec_outside (hB : Loads E cd c B) (hscript : isScript B.mem B.buf B.size)
    (hnot : ¬ Ended B.mem B.buf B.size) : ∃ k d, ∃ t ∈ (fexec E k cd d c).1, ¬ t.Inside := by
  obtain ⟨c', hleads, n, hn⟩ := hB
  obtain ⟨m, hm⟩ := touches_of_leads hleads
  obtain ⟨i, hi⟩ := scanned_outside hnot hscript.1
  obtain ⟨j, hj⟩ := hm (max (max n m) i) (by omega)
  obtain ⟨t, ht, hout⟩ := hi (max (max n m) i) (by omega)
  refine ⟨max (max n m) i, 1 + j, t, hj 1 t ?_, hout⟩
  have hload : load E (max (max n m) i) cd c' = some (.loaded B) := hn _ (by omega)
  rw [fexec, hload]
  simp only [if_pos hscript]
  cases B.interpreter E (max (max n m) i) with
  | none => exact List.mem_append_right _ ht
  | some c₁ => exact List.mem_append_left _ (List.mem_append_right _ ht)

end Runs

/-- **Accesses stay inside** of a buffer, and only whole binaries are spawned: for `bexec` on
any buffer, and for `fexec` with everything that it loads. -/
theorem stays_inside_iff (E : Env) (cd : Ptr) :
    (∀ buf size argv s,
      ((∀ k, ∀ t ∈ (bexec E k buf size argv s).1, t.Inside) ∧ Refuses E buf size argv s) ↔
        (Marked s.fs.mem buf size → Whole s.fs.mem buf size)) ∧
    ∀ c,
      ((∀ k d, ∀ t ∈ (fexec E k cd d c).1, t.Inside) ∧
        ∀ B, Loads E cd c B → ¬ isScript B.mem B.buf B.size → Refuses E B.buf B.size B.argv B.state) ↔
      ∀ B, Loads E cd c B → B.Sound := by
  refine ⟨fun buf size argv s => bexec_inside_iff, fun c => ⟨?_, ?_⟩⟩
  · rintro ⟨hinside, hrefuse⟩ B hB
    unfold Buffer.Sound
    by_cases hscript : isScript B.mem B.buf B.size
    · rw [if_pos hscript]
      by_contra hnot
      obtain ⟨k, d, t, ht, hout⟩ := fexec_outside hB hscript hnot
      exact hout (hinside k d t ht)
    · rw [if_neg hscript]
      intro hm
      by_contra hw
      exact bexec_marked hm 0 (hrefuse B hB hscript hw 0)
  · intro h
    refine ⟨fun k d => fexec_inside h, fun B hB hscript => ?_⟩
    have hsound := h B hB
    unfold Buffer.Sound at hsound
    rw [if_neg hscript] at hsound
    exact (bexec_inside_iff.mpr hsound).2

/-- The root directory has a file `a` with the text `#!a`, without a newline. -/
def unendedCall : Call :=
  ⟨pathA, [], ⟨fileState 3 (Memory.blit (fun _ => 0) 0x100 [35, 33, 97]), Scheduler.bootState, []⟩⟩

/-- The scan goes behind the buffer, where it stores the zero. -/
theorem unended_script : ∃ k d, ∃ t ∈ (fexec smallEnv k NULL d unendedCall).1, ¬ t.Inside := by
  have hload :=
    load_file (c := unendedCall) (n := 3) rfl rfl (by omega) (by unfold Fs.fsSizeUnknown wordSize; omega)
  have htext : Memory.slice (Memory.blit (fun _ => 0) 0x100 [35, 33, 97]) 0x100 3 = [35, 33, 97] :=
    Memory.slice_blit_self
  rw [htext] at hload
  have hsettles := settles_of_below (fun hle => load_below smallEnv hle NULL unendedCall) hload
  refine fexec_outside ⟨unendedCall, .refl, hsettles⟩ ⟨show 3 > 2 by omega, rfl, rfl⟩ ?_
  rintro ⟨i, ⟨hi, hsize, -⟩, hend⟩
  have hsize' : i < 3 := hsize
  obtain rfl : i = 2 := by omega
  have hbyte :
      Memory.blit (Memory.blit (fun _ => 0) 0x100 [35, 33, 97]) 0x1000 [35, 33, 97] (0x1000 + 2) = 97 :=
    Memory.blit_inside (by decide)
  have hend' : EndsName (97 : UInt8) := hbyte ▸ hend
  exact absurd hend' (by decide)

end Frosk.Exec
