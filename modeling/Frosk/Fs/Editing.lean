import Mathlib.Tactic
import Frosk.Fs.Directory

/-!
# The kernel's file system: writing to files in memory

`fs_write` on a virtual file without hooks. It clamps a write that reaches beyond the
file, but adds `addr` and `size` as machine words, and it returns `size` for a write that
begins beyond the file and stores nothing.

Main result: `write_honest_iff`, the writes whose effect, count and read back are as they
should be.
-/

namespace Frosk.Fs

open Lib

/-- A virtual file without hooks, whose data is in memory. -/
structure InMemory (s : State) (e : Ptr) : Prop where
  ne_null  : e ≠ NULL
  type     : (s.ent e).type = .FILE
  virt     : (s.ent e).flags.virt = true
  unhooked : (s.ent e).flags.hooked = false
  known    : (s.ent e).size < fsSizeUnknown
  placed   : (s.ent e).data + (s.ent e).size ≤ wordSize

/-- The bytes of a range that are in the file, counted without wrap-around. -/
def State.inFile (s : State) (e : Ptr) (addr size : Nat) : Nat := min size ((s.ent e).size - addr)

/-- The write returns the number of bytes of the range that are in the file, changes
nothing but these, and they read back. -/
def HonestWrite (E : Env) (W : WriteHook) (buf : List UInt8) (addr size : Nat) (e : Ptr) (s : State) :
    Prop :=
  ∃ s', fsWrite W buf addr size e s = some (s', s.inFile e addr size) ∧
    (∀ x, x < (s.ent e).data + addr ∨ (s.ent e).data + addr + s.inFile e addr size ≤ x →
      s'.mem x = s.mem x) ∧
    s' = { s with mem := s'.mem } ∧
    ∀ k, fsRead E k addr size e s' =
      some (s', s.inFile e addr size, buf.take (s.inFile e addr size))

section Write

variable {E : Env} {W : WriteHook} {buf : List UInt8} {addr size : Nat} {e : Ptr} {s : State}

/-- Behind the end nothing is stored, and all is counted. -/
theorem fsWrite_behind (h : InMemory s e) (hle : (s.ent e).size ≤ addr) :
    fsWrite W buf addr size e s = some (s, size) := by
  rw [fsWrite, if_neg (not_not_intro h.type), h.unhooked, if_neg Bool.false_ne_true, if_pos h.virt,
    if_neg (Nat.not_lt.mpr hle)]

/-- Inside the file and without wrap-around, the write is cut at the end of the file. -/
theorem fsWrite_inside (h : InMemory s e) (hlt : addr < (s.ent e).size)
    (hsum : addr + size < wordSize) :
    fsWrite W buf addr size e s = some ({ s with
      mem := s.mem.blit ((s.ent e).data + addr) (buf.take (s.inFile e addr size)) },
      s.inFile e addr size) := by
  have hknown := h.known
  have hclamp : (if (s.ent e).size < (addr + size) % wordSize then wsub (s.ent e).size addr
      else size) = s.inFile e addr size := by
    rw [Nat.mod_eq_of_lt hsum, State.inFile]
    split
    · rw [wsub_eq hlt.le (by unfold fsSizeUnknown at hknown; omega), Nat.min_eq_right (by omega)]
    · rw [Nat.min_eq_left (by omega)]
  rw [fsWrite, if_neg (not_not_intro h.type), h.unhooked, if_neg Bool.false_ne_true, if_pos h.virt,
    if_pos hlt]
  simp only [hclamp]

/-- Where the sum wraps around it is below the end of the file, and nothing is cut. -/
theorem fsWrite_wrapped (h : InMemory s e) (hlt : addr < (s.ent e).size) (hsize : size < wordSize)
    (hsum : wordSize ≤ addr + size) : ∃ s', fsWrite W buf addr size e s = some (s', size) := by
  have hknown := h.known
  have hclamp : ¬ (s.ent e).size < (addr + size) % wordSize := by
    unfold fsSizeUnknown wordSize at *
    omega
  rw [fsWrite, if_neg (not_not_intro h.type), h.unhooked, if_neg Bool.false_ne_true, if_pos h.virt,
    if_pos hlt]
  simp only [if_neg hclamp]
  exact ⟨_, rfl⟩

/-- Whatever is written, the entry is as before. -/
theorem fsWrite_inMemory {x : State × Nat} (h : InMemory s e)
    (hwrite : fsWrite W buf addr size e s = some x) : x.1 = { s with mem := x.1.mem } := by
  rw [fsWrite, if_neg (not_not_intro h.type), h.unhooked, if_neg Bool.false_ne_true, if_pos h.virt]
    at hwrite
  by_cases hlt : addr < (s.ent e).size
  · rw [if_pos hlt] at hwrite
    rw [← Option.some.inj hwrite]
  · rw [if_neg hlt] at hwrite
    rw [← Option.some.inj hwrite]

/-- Whether a file is in memory does not depend on its bytes. -/
theorem InMemory.withMem (h : InMemory s e) (m : Memory) : InMemory { s with mem := m } e :=
  ⟨h.ne_null, h.type, h.virt, h.unhooked, h.known, h.placed⟩

/-- The size of a file in memory is known. -/
theorem fsSize_inMemory (E : Env) (h : InMemory s e) (k : Nat) :
    fsSize E k e s = some (s, (s.ent e).size) := by
  rw [fsSize, if_neg (by simp [h.ne_null, h.type]), if_pos h.known.ne]

/-- Reading a file in memory. -/
theorem fsRead_inMemory (E : Env) (h : InMemory s e) (addr size k : Nat) :
    fsRead E k addr size e s = some (s, s.inFile e addr size,
      s.mem.slice ((s.ent e).data + addr) (s.inFile e addr size)) := by
  have hknown := h.known
  have hword : (s.ent e).size < wordSize := by
    unfold fsSizeUnknown at hknown
    omega
  rw [fsRead, if_neg (not_not_intro h.type)]
  by_cases hle : (s.ent e).size ≤ addr
  · have hnone : s.inFile e addr size = 0 := by
      rw [State.inFile, Nat.sub_eq_zero_of_le hle, Nat.min_zero]
    rw [if_pos hle, hnone]
    rfl
  · have hlt : addr < (s.ent e).size := Nat.lt_of_not_le hle
    have hmin : (if wsub (s.ent e).size addr < size then wsub (s.ent e).size addr else size) =
        s.inFile e addr size := by
      rw [wsub_eq hlt.le hword, State.inFile]
      split <;> omega
    have hin : addr + s.inFile e addr size ≤ (s.ent e).size := by
      unfold State.inFile
      omega
    have hcut : ¬ (s.ent e).size < (addr + s.inFile e addr size) % wordSize := by
      rw [Nat.mod_eq_of_lt (hin.trans_lt hword)]
      omega
    rw [if_neg hle, fsSize_inMemory E h]
    simp only [Option.bind_eq_bind, Option.bind_some, hmin]
    by_cases hzero : s.inFile e addr size = 0
    · rw [if_pos hzero, hzero]
      rfl
    · rw [if_neg hzero, h.unhooked, if_neg Bool.false_ne_true, if_pos (.inr h.virt), if_pos hlt,
        if_neg hcut]

/-- **Writes to files in memory**: the write does what it should exactly if a write that
begins in the file does not wrap around, and one that begins behind it is empty. -/
theorem write_honest_iff (E : Env) (W : WriteHook) (s : State) (e : Ptr) (h : InMemory s e)
    (buf : List UInt8) (addr size : Nat) (hbuf : buf.length = size) (hsize : size < wordSize) :
    HonestWrite E W buf addr size e s ↔
      (addr < (s.ent e).size → addr + size < wordSize) ∧ ((s.ent e).size ≤ addr → size = 0) := by
  constructor
  · rintro ⟨s', hwrite, -⟩
    constructor
    · intro hlt
      by_contra hsum
      obtain ⟨s₁, hwrapped⟩ : ∃ s', fsWrite W buf addr size e s = some (s', size) :=
        fsWrite_wrapped h hlt hsize (Nat.le_of_not_lt hsum)
      have hcount : size = s.inFile e addr size := by
        rw [hwrapped] at hwrite
        exact congrArg Prod.snd (Option.some.inj hwrite)
      have hknown := h.known
      unfold State.inFile at hcount
      unfold fsSizeUnknown at hknown
      omega
    · intro hle
      rw [fsWrite_behind h hle] at hwrite
      have hcount : size = s.inFile e addr size := congrArg Prod.snd (Option.some.inj hwrite)
      unfold State.inFile at hcount
      omega
  · rintro ⟨hsum, hempty⟩
    have hwrite : fsWrite W buf addr size e s = some ({ s with
        mem := s.mem.blit ((s.ent e).data + addr) (buf.take (s.inFile e addr size)) },
        s.inFile e addr size) := by
      rcases Nat.lt_or_ge addr (s.ent e).size with hlt | hle
      · exact fsWrite_inside h hlt (hsum hlt)
      · have hnone : s.inFile e addr size = 0 := by
          unfold State.inFile
          omega
        rw [fsWrite_behind h hle, hnone, List.take_zero, Memory.blit_nil, hempty hle]
    have hlength : (buf.take (s.inFile e addr size)).length = s.inFile e addr size := by
      rw [List.length_take, hbuf]
      exact Nat.min_eq_left (Nat.min_le_left _ _)
    refine ⟨_, hwrite, fun x hx => Memory.blit_outside (hlength.symm ▸ hx), rfl, fun k => ?_⟩
    have hself := Memory.slice_blit_self (m := s.mem) (a := (s.ent e).data + addr)
      (l := buf.take (s.inFile e addr size))
    rw [hlength] at hself
    generalize hmem : s.mem.blit ((s.ent e).data + addr) (buf.take (s.inFile e addr size)) = mem
    rw [hmem] at hself
    have hread := fsRead_inMemory E (h.withMem mem) addr size k
    exact hread.trans (congrArg (fun l => some (_, _, l)) hself)

end Write

/-- A file of four bytes at address `0x5000`. -/
def State.fourBytes : State := State.single.modify 2 fun v =>
  { v with type := .FILE, flags.virt := true, data := 0x5000, size := 4 }

theorem fourBytes_inMemory : InMemory State.fourBytes 2 := by
  refine ⟨?_, ?_, ?_, ?_, ?_, ?_⟩ <;> decide

/-- Two bytes at offset 2 are the last two of the file. -/
theorem write_honest_last_two :
    HonestWrite .plain (fun _ _ _ _ m => (0, m)) [7, 8] 2 2 2 State.fourBytes :=
  (write_honest_iff .plain _ State.fourBytes 2 fourBytes_inMemory [7, 8] 2 2 rfl (by decide)).mpr
    ⟨by decide, by decide⟩

/-- One byte at the end of the file is not stored, but counted. -/
theorem write_behind_counted :
    ¬ HonestWrite .plain (fun _ _ _ _ m => (0, m)) [7] 4 1 2 State.fourBytes := by
  rintro ⟨s', hwrite, -⟩
  rw [fsWrite_behind fourBytes_inMemory (by decide)] at hwrite
  have hcount : 1 = State.fourBytes.inFile 2 4 1 := congrArg Prod.snd (Option.some.inj hwrite)
  exact absurd hcount (by decide)

end Frosk.Fs
