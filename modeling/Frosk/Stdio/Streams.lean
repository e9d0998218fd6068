import Mathlib.Tactic
import Frosk.Fs.Editing
import Frosk.Fs.Files

/-!
# Streams

The calls on a `FILE` of `lib/cstd/src/stdio.c`: `fseek`, `fread`, `fwrite`, `fputc` and `fputs`,
over `fs_size`, `fs_read` and `fs_write` of the kernel.

`FixedFile` is a regular file of fixed size as the kernel's functions show it; files in memory, on
one block and on many blocks are such files (`FixedFile.ofVirtual`, `ofOneBlock`, `ofBlocks`).

* `positions_iff` : over every run of calls `fseek` and `fread` come back, the cursor stays in the
  file, and each `fread` returns and moves by the bytes that were copied, exactly if each `fread` asks
  for no more than is left, below `2^63`, and each `fputc` is made before the end of the file.

`fread` returns what it was asked for, and `fputc` is the only call that does not clamp the cursor.
-/

namespace Frosk.Stdio

open Lib Fs

-- ---------------------------------------------------------------------------
-- stdio.c
-- ---------------------------------------------------------------------------

inductive StdStream where
  | stdin
  | stdout
  | stderr
deriving DecidableEq

/-- `enum _seek`. -/
inductive Seek where
  | SEEK_SET
  | SEEK_CUR
  | SEEK_END

/-- A `FILE`; `std` is the standard stream that the pointer is. -/
structure Stream where
  std    : Option StdStream
  file   : Ptr
  cursor : Nat

/-- The kernel's file system, the stream, and the messages sent to the parent. -/
structure World where
  fs   : Fs.State
  f    : Stream
  sent : List (List UInt8)

/-- The bytes that a call stored, and what it returned. -/
structure Answer where
  ret    : Int
  copied : List UInt8
deriving DecidableEq

abbrev EOF : Int := -1

/-- The offset after the switch of `fseek`; a `long` is given by its word. -/
def seekBase (sz cursor offset : Nat) : Seek → Nat
  | .SEEK_CUR => (offset + cursor) % wordSize
  | .SEEK_END => (offset + sz) % wordSize
  | .SEEK_SET => offset

/-- Where the cursor comes to be. -/
def clamp (sz offset : Nat) : Nat :=
  if offset ≥ 2 ^ 63 then 0 else if offset > sz then sz else offset

section

variable (E : Env) (W : WriteHook) (k : Nat)

def fseek (offset : Nat) (seek : Seek) (w : World) : Option (World × Int) :=
  if w.f.std ≠ none then some (w, 1)
  else do
    let (fs, sz) ← fsSize E k w.f.file w.fs
    some ({ w with fs := fs, f.cursor := clamp sz (seekBase sz w.f.cursor offset seek) }, 0)

def fread (n sz : Nat) (w : World) : Option (World × Answer) :=
  if w.f.std ≠ none then some (w, ⟨0, []⟩)
  else do
    let total := n * sz % wordSize
    let (fs, _, bytes) ← fsRead E k w.f.cursor total w.f.file w.fs
    let (w, _) ← fseek E k total .SEEK_CUR { w with fs := fs }
    some (w, ⟨total, bytes⟩)

def fwrite (buf : List UInt8) (n sz : Nat) (w : World) : Option (World × Answer) :=
  if w.f.std ≠ none then some (w, ⟨0, []⟩)
  else do
    let total := n * sz % wordSize
    let (fs, _) ← fsWrite W buf w.f.cursor total w.f.file w.fs
    let (w, _) ← fseek E k total .SEEK_CUR { w with fs := fs }
    some (w, ⟨total, []⟩)

def fputc (ch : Int) (w : World) : Option (World × Answer) :=
  if w.f.std = some .stdin then some (w, ⟨EOF, []⟩)
  else if w.f.std ≠ none then some ({ w with sent := w.sent ++ [[UInt8.ofInt ch]] }, ⟨ch, []⟩)
  else do
    let (fs, _) ← fsWrite W [UInt8.ofInt ch] w.f.cursor 1 w.f.file w.fs
    some ({ w with fs := fs, f.cursor := (w.f.cursor + 1) % wordSize }, ⟨ch, []⟩)

def fputs (buf : CStr) (w : World) : Option (World × Answer) :=
  let len := buf.chars.length
  if w.f.std = some .stdin then some (w, ⟨EOF, []⟩)
  else if w.f.std ≠ none then
    some ({ w with sent := w.sent ++ [buf.chars] }, ⟨(Int32.ofNat len).toInt, []⟩)
  else do
    let (fs, _) ← fsWrite W buf.chars w.f.cursor len w.f.file w.fs
    let (w, _) ← fseek E k len .SEEK_CUR { w with fs := fs }
    some (w, ⟨(Int32.ofNat len).toInt, []⟩)

end

/-- The calls. -/
inductive Call where
  | fseek (offset : UInt64) (seek : Seek)
  | fread (n sz : UInt64)
  | fwrite (buf : List UInt8) (n sz : UInt64)
  | fputc (ch : Int)
  | fputs (buf : CStr)

def Call.run (E : Env) (W : WriteHook) (k : Nat) (w : World) : Call → Option (World × Answer)
  | .fseek offset seek => (Stdio.fseek E k offset.toNat seek w).map fun r => (r.1, ⟨r.2, []⟩)
  | .fread n sz => Stdio.fread E k n.toNat sz.toNat w
  | .fwrite buf n sz => Stdio.fwrite E W k buf n.toNat sz.toNat w
  | .fputc ch => Stdio.fputc W ch w
  | .fputs buf => Stdio.fputs E W k buf w

def Call.Step (E : Env) (W : WriteHook) (w : World) (c : Call) (w' : World) (a : Answer) : Prop :=
  ∃ k, c.run E W k w = some (w', a)

-- ---------------------------------------------------------------------------
-- What is expected
-- ---------------------------------------------------------------------------

/-- A regular file of fixed size, as the kernel's functions show it: what they keep of the state of
the file system, and what they answer. `fs_size` and `fs_read` return. -/
structure FixedFile (E : Env) (W : WriteHook) (e : Ptr) (size : Nat) where
  holds  : Fs.State → Prop
  bound  : size < fsSizeUnknown
  sized  : ∀ {s}, holds s → ∃ s', Settles (fun k => fsSize E k e s) (s', size) ∧ holds s'
  reads  : ∀ {s addr n}, holds s → addr ≤ size → ∃ s' l,
    Settles (fun k => fsRead E k addr n e s) (s', min n (size - addr), l) ∧
      l.length = min n (size - addr) ∧ holds s'
  writes : ∀ {s s' buf addr n c}, holds s → fsWrite W buf addr n e s = some (s', c) → holds s'

/-- The count is that of the bytes copied, which are those up to the end of the file, and the cursor
moves by it. -/
def Call.Counts (size : Nat) (w w' : World) (a : Answer) : Call → Prop
  | .fread n sz => a.copied.length = min (n.toNat * sz.toNat) (size - w.f.cursor) ∧
      a.ret = a.copied.length ∧ w'.f.cursor = w.f.cursor + a.copied.length
  | _ => True

def Call.Proper (size : Nat) (w : World) (c : Call) (w' : World) (a : Answer) : Prop :=
  w'.f.cursor ≤ size ∧ c.Counts size w w' a

/-- What is left of the file is enough for the call. -/
def Call.Enough (size : Nat) (w : World) : Call → Prop
  | .fread n sz => n.toNat * sz.toNat ≤ size - w.f.cursor ∧ w.f.cursor + n.toNat * sz.toNat < 2 ^ 63
  | .fputc _ => w.f.cursor < size
  | _ => True

/-- The product that `fread` is given is a word. -/
def Call.Unwrapped : Call → Prop
  | .fread n sz => n.toNat * sz.toNat < wordSize
  | _ => True

/-- `fseek` and `fread` return. -/
def Call.Returns (E : Env) (W : WriteHook) (w : World) : Call → Prop
  | .fseek offset seek => ∃ w' a, Settles (fun k => (Call.fseek offset seek).run E W k w) (w', a)
  | .fread n sz => ∃ w' a, Settles (fun k => (Call.fread n sz).run E W k w) (w', a)
  | _ => True

/-- A stream on the file, with the cursor inside of it. -/
structure Opened {E : Env} {W : WriteHook} {e : Ptr} {size : Nat} (F : FixedFile E W e size)
    (w : World) : Prop where
  std    : w.f.std = none
  file   : w.f.file = e
  holds  : F.holds w.fs
  inside : w.f.cursor ≤ size

-- ---------------------------------------------------------------------------
-- Files of fixed size
-- ---------------------------------------------------------------------------

section Files

variable {E : Env} {W : WriteHook} {e : Ptr} {size start addr n : Nat} {s : Fs.State}

/-- A file in memory, such as `fs_enter` makes. -/
def FixedFile.ofVirtual (E : Env) (W : WriteHook) (e : Ptr) (size : Nat)
    (hbound : size < fsSizeUnknown) : FixedFile E W e size where
  holds s := InMemory s e ∧ (s.ent e).size = size
  bound := hbound
  sized {s} h := by
    refine ⟨s, settles_of_eq fun k => ?_, h⟩
    rw [fsSize_inMemory E h.1, h.2]
  reads {s addr n} h _ := by
    refine ⟨s, s.mem.slice ((s.ent e).data + addr) (min n (size - addr)), settles_of_eq fun k => ?_,
      Memory.slice_length, h⟩
    rw [fsRead_inMemory E h.1, Fs.State.inFile, h.2]
  writes {s s' buf addr n c} h hwrite := by
    have hkept : s' = { s with mem := s'.mem } := fsWrite_inMemory h.1 hwrite
    rw [hkept]
    exact ⟨h.1.withMem s'.mem, h.2⟩

/-- The kernel does not write files of the disk. -/
theorem onDisk_fsWrite {buf : List UInt8} (h : OnDisk s e) : fsWrite W buf addr n e s = none := by
  rw [fsWrite, if_neg (not_not_intro h.type), h.unhooked, h.virt]
  rfl

/-- A file of one block, loaded or not. -/
def FixedFile.ofOneBlock (E : Env) (W : WriteHook) (e : Ptr) (start size : Nat)
    (hbound : size < fsSizeUnknown) : FixedFile E W e size where
  holds := OneBlock E e start size
  bound := hbound
  sized h := h.fsSize
  reads {s addr n} h haddr := by
    obtain ⟨s', hset, h'⟩ := h.read_settles (.inr (.inl haddr))
    exact ⟨s', _, hset, Memory.slice_length, h'⟩
  writes h hwrite := by
    rw [onDisk_fsWrite h.onDisk] at hwrite
    exact absurd hwrite (Option.some_ne_none _).symm

/-- The bytes that a read of many blocks copies. -/
theorem blockFile_reads {ns : List Nat} (h : BlockFile E s e ns) (haddr : addr ≤ total s ns) :
    ∃ l : List UInt8, Settles (fun k => fsRead E k addr n e s) (s, min n (total s ns - addr), l) ∧
      l.length = min n (total s ns - addr) := by
  rcases Nat.lt_or_ge addr (total s ns) with hlt | hge
  · by_cases hn : n = 0
    · subst hn
      rw [Nat.zero_min]
      have hset := fsRead_nothing h.onDisk (h.size.symm ▸ hlt) (h.fsSize E.disk)
        (Nat.zero_min (wsub (total s ns) addr))
      exact ⟨[], hset, rfl⟩
    · have hsome : min n (total s ns - addr) ≠ 0 := by omega
      have hfits : addr + min n (total s ns - addr) ≤ total s ns := by omega
      obtain ⟨r, hexits, hfs, hrem, hlen⟩ := h.reads_all E.disk hsome hfits
      refine ⟨r.buf, (h.settles_iff hlt hn E.disk).mpr ⟨r, hexits, ?_⟩, hlen⟩
      rw [hfs, hrem, Nat.sub_zero]
  · have hnone : min n (total s ns - addr) = 0 := by omega
    rw [hnone]
    refine ⟨[], settles_of_eq fun k => ?_, rfl⟩
    rw [fsRead, if_neg (not_not_intro h.onDisk.type), if_pos (h.size.symm ▸ hge)]

/-- A file of any number of blocks, which are loaded. -/
def FixedFile.ofBlocks (E : Env) (W : WriteHook) (e : Ptr) (ns : List Nat) (size : Nat)
    (hbound : size < fsSizeUnknown) : FixedFile E W e size where
  holds s := BlockFile E s e ns ∧ total s ns = size
  bound := hbound
  sized {s} h := ⟨s, h.2 ▸ h.1.fsSize E.disk, h⟩
  reads {s addr n} h haddr := by
    obtain ⟨bytes, hset, hlen⟩ := blockFile_reads (n := n) h.1 (h.2.symm ▸ haddr)
    rw [h.2] at hset hlen
    exact ⟨s, bytes, hset, hlen, h⟩
  writes h hwrite := by
    rw [onDisk_fsWrite h.1.onDisk] at hwrite
    exact absurd hwrite (Option.some_ne_none _).symm

end Files

section Steps

variable {E : Env} {W : WriteHook} {k : Nat} {e : Ptr} {size total offset : Nat} {seek : Seek}
  {F : FixedFile E W e size} {w w' : World} {a : Answer} {c : Call} {r : Int}

-- ---------------------------------------------------------------------------
-- fseek
-- ---------------------------------------------------------------------------

/-- A size that is returned is the one of the file. -/
theorem FixedFile.sized_of {s s' : Fs.State} {n : Nat} (hholds : F.holds s)
    (h : fsSize E k e s = some (s', n)) : n = size ∧ F.holds s' := by
  obtain ⟨s₁, hset, hs₁⟩ := F.sized hholds
  have hcall : Settles (fun k => fsSize E k e s) (s', n) := ⟨k, fun k' hle => fsSize_below E hle e s _ h⟩
  obtain ⟨rfl, rfl⟩ := Prod.mk.inj (hcall.unique hset)
  exact ⟨rfl, hs₁⟩

/-- A read that returns gave what was there. -/
theorem FixedFile.reads_of {s s' : Fs.State} {addr n m : Nat} {l : List UInt8} (hholds : F.holds s)
    (haddr : addr ≤ size) (h : fsRead E k addr n e s = some (s', m, l)) :
    m = min n (size - addr) ∧ l.length = m ∧ F.holds s' := by
  obtain ⟨s₁, l₁, hset, hlen, hs₁⟩ := F.reads (n := n) hholds haddr
  have hcall : Settles (fun k => fsRead E k addr n e s) (s', m, l) :=
    ⟨k, fun k' hle => fsRead_below E hle addr n e s _ h⟩
  obtain ⟨rfl, hrest⟩ := Prod.mk.inj (hcall.unique hset)
  obtain ⟨rfl, rfl⟩ := Prod.mk.inj hrest
  exact ⟨rfl, hlen, hs₁⟩

/-- The cursor stays within the file. -/
theorem clamp_le : clamp size offset ≤ size := by
  unfold clamp
  split_ifs <;> omega

/-- The cursor after `fseek`, wherever it was. -/
theorem fseek_cases (hstd : w.f.std = none) (hfile : w.f.file = e) (hholds : F.holds w.fs)
    (h : fseek E k offset seek w = some (w', r)) :
    Opened F w' ∧ w'.f.cursor = clamp size (seekBase size w.f.cursor offset seek) := by
  rw [fseek, if_neg (not_not_intro hstd), hfile] at h
  obtain ⟨⟨fs, n⟩, hsize, h⟩ := Option.bind_eq_some_iff.mp h
  obtain ⟨rfl, hfs⟩ := F.sized_of hholds hsize
  obtain ⟨rfl, -⟩ := Prod.mk.inj (Option.some.inj h)
  exact ⟨⟨hstd, hfile, hfs, clamp_le⟩, rfl⟩

/-- `fseek` returns. -/
theorem fseek_settles (offset : Nat) (seek : Seek) (hstd : w.f.std = none) (hfile : w.f.file = e)
    (hholds : F.holds w.fs) : ∃ w', Settles (fun k => fseek E k offset seek w) (w', 0) := by
  obtain ⟨fs, ⟨n, hn⟩, -⟩ := F.sized hholds
  refine ⟨{ w with fs := fs, f.cursor := clamp size (seekBase size w.f.cursor offset seek) }, n,
    fun k hk => ?_⟩
  have hsize : fsSize E k w.f.file w.fs = some (fs, size) := hfile ▸ hn k hk
  dsimp only
  rw [fseek, if_neg (not_not_intro hstd), hsize]
  rfl

/-- From the cursor a seek goes on by what was read. -/
theorem seekBase_cur (hword : w.f.cursor + total < wordSize) :
    seekBase size w.f.cursor total .SEEK_CUR = w.f.cursor + total := by
  rw [seekBase, Nat.add_comm, Nat.mod_eq_of_lt hword]

-- ---------------------------------------------------------------------------
-- The calls
-- ---------------------------------------------------------------------------

/-- What `fread` returned, and where it left the cursor. -/
theorem fread_cases {n sz : Nat} (hw : Opened F w) (htotal : n * sz < wordSize)
    (h : fread E k n sz w = some (w', a)) :
    Opened F w' ∧ a.ret = n * sz ∧ a.copied.length = min (n * sz) (size - w.f.cursor) ∧
      w'.f.cursor = clamp size (seekBase size w.f.cursor (n * sz) .SEEK_CUR) := by
  rw [fread, if_neg (not_not_intro hw.std), hw.file, Nat.mod_eq_of_lt htotal] at h
  obtain ⟨⟨fs, count, bytes⟩, hread, h⟩ := Option.bind_eq_some_iff.mp h
  obtain ⟨hcount, hbytes, hfs⟩ := F.reads_of hw.holds hw.inside hread
  obtain ⟨⟨w₁, r⟩, hseek, h⟩ := Option.bind_eq_some_iff.mp h
  obtain ⟨rfl, rfl⟩ := Prod.mk.inj (Option.some.inj h)
  obtain ⟨hopened, hcursor⟩ := fseek_cases (w := { w with fs := fs }) hw.std hw.file hfs hseek
  exact ⟨hopened, Nat.cast_mul n sz, hbytes.trans hcount, hcursor⟩

/-- A write and a seek. -/
theorem seeks_after_write {n len : Nat} {buf : List UInt8} {v : Answer} (hw : Opened F w)
    (h : ((fsWrite W buf w.f.cursor n w.f.file w.fs).bind fun x =>
      (fseek E k len .SEEK_CUR { w with fs := x.1 }).bind fun y => some (y.1, v)) = some (w', a)) :
    Opened F w' := by
  rw [hw.file] at h
  obtain ⟨⟨fs, count⟩, hwrite, h⟩ := Option.bind_eq_some_iff.mp h
  obtain ⟨⟨w₁, r⟩, hseek, h⟩ := Option.bind_eq_some_iff.mp h
  obtain ⟨rfl, -⟩ := Prod.mk.inj (Option.some.inj h)
  have hfs := F.writes hw.holds hwrite
  exact (fseek_cases (w := { w with fs := fs }) hw.std hw.file hfs hseek).1

/-- What `fputc` left. -/
theorem fputc_cases {ch : Int} (hw : Opened F w) (h : fputc W ch w = some (w', a)) :
    w'.f.std = none ∧ w'.f.file = e ∧ F.holds w'.fs ∧ w'.f.cursor = w.f.cursor + 1 := by
  have hstd : w.f.std ≠ some .stdin := by
    rw [hw.std]
    exact Option.some_ne_none _ |>.symm
  have hword : w.f.cursor + 1 < wordSize := by
    have hbound := F.bound
    have hinside := hw.inside
    unfold fsSizeUnknown at hbound
    omega
  rw [fputc, if_neg hstd, if_neg (not_not_intro hw.std), hw.file, Nat.mod_eq_of_lt hword] at h
  obtain ⟨⟨fs, count⟩, hwrite, h⟩ := Option.bind_eq_some_iff.mp h
  obtain ⟨rfl, -⟩ := Prod.mk.inj (Option.some.inj h)
  exact ⟨hw.std, hw.file, F.writes hw.holds hwrite, rfl⟩

/-- All the calls but `fputc` clamp the cursor. -/
theorem opened_after (hw : Opened F w) (hc : c.Unwrapped) (h : c.Step E W w w' a)
    (hputc : ∀ ch, c ≠ .fputc ch) : Opened F w' := by
  obtain ⟨k, h⟩ := h
  cases c with
  | fseek offset seek =>
    obtain ⟨⟨w₁, r⟩, hseek, h⟩ := Option.map_eq_some_iff.mp h
    obtain ⟨rfl, -⟩ := Prod.mk.inj h
    exact (fseek_cases hw.std hw.file hw.holds hseek).1
  | fread n sz => exact (fread_cases hw hc h).1
  | fwrite buf n sz =>
    simp only [Call.run, fwrite, hw.std, ne_eq, not_true, if_false] at h
    exact seeks_after_write hw h
  | fputc ch => exact absurd rfl (hputc ch)
  | fputs buf =>
    simp only [Call.run, fputs, hw.std, ne_eq, not_true, if_false, reduceCtorEq] at h
    exact seeks_after_write hw h

/-- A proper call leaves the file open. -/
theorem opened_of_proper (hw : Opened F w) (hc : c.Unwrapped) (h : c.Step E W w w' a)
    (hproper : c.Proper size w w' a) : Opened F w' := by
  by_cases hputc : ∃ ch, c = .fputc ch
  · obtain ⟨ch, rfl⟩ := hputc
    obtain ⟨k, h⟩ := h
    obtain ⟨hstd, hfile, hholds, -⟩ := fputc_cases hw h
    exact ⟨hstd, hfile, hholds, hproper.1⟩
  · exact opened_after hw hc h fun ch hch => hputc ⟨ch, hch⟩

/-- `fread` is proper exactly if the bytes are there, and the seek does not take the sum for a
negative number. -/
theorem fread_proper_iff {n sz : UInt64} (hw : Opened F w) (hc : (Call.fread n sz).Unwrapped)
    (h : (Call.fread n sz).Step E W w w' a) :
    (Call.fread n sz).Proper size w w' a ↔ (Call.fread n sz).Enough size w := by
  obtain ⟨k, h⟩ := h
  obtain ⟨hopened, hret, hcopied, hcursor⟩ := fread_cases hw hc h
  have hinside := hw.inside
  have hbound := F.bound
  unfold fsSizeUnknown at hbound
  have hret' : a.ret = a.copied.length ↔ n.toNat * sz.toNat ≤ size - w.f.cursor := by
    rw [hret, hcopied]
    omega
  rw [Call.Proper, Call.Counts, Call.Enough, hret', hcursor]
  refine ⟨fun ⟨_, _, hle, hmove⟩ => ⟨hle, ?_⟩, fun ⟨hle, hpos⟩ => ⟨clamp_le, hcopied, hle, ?_⟩⟩
  · rw [seekBase_cur (by omega), clamp, hcopied] at hmove
    split_ifs at hmove <;> omega
  · rw [seekBase_cur (by omega), clamp, hcopied]
    split_ifs <;> omega

/-- A call is proper when it asks for no more than there is. -/
theorem proper_iff (hw : Opened F w) (hc : c.Unwrapped) (h : c.Step E W w w' a) :
    c.Proper size w w' a ↔ c.Enough size w := by
  cases c with
  | fread n sz => exact fread_proper_iff hw hc h
  | fputc ch =>
    obtain ⟨k, h⟩ := h
    obtain ⟨-, -, -, hcursor⟩ := fputc_cases hw h
    have hle : w'.f.cursor ≤ size ↔ w.f.cursor < size := by rw [hcursor, Nat.succ_le_iff]
    exact ⟨fun hproper => hle.mp hproper.1, fun henough => ⟨hle.mpr henough, trivial⟩⟩
  | fseek offset seek =>
    have hopened := opened_after hw hc h fun ch => Call.noConfusion
    exact ⟨fun _ => trivial, fun _ => ⟨hopened.inside, trivial⟩⟩
  | fwrite buf n sz =>
    have hopened := opened_after hw hc h fun ch => Call.noConfusion
    exact ⟨fun _ => trivial, fun _ => ⟨hopened.inside, trivial⟩⟩
  | fputs buf =>
    have hopened := opened_after hw hc h fun ch => Call.noConfusion
    exact ⟨fun _ => trivial, fun _ => ⟨hopened.inside, trivial⟩⟩

-- ---------------------------------------------------------------------------
-- Calls that return
-- ---------------------------------------------------------------------------

/-- `fread` returns. -/
theorem fread_settles {n sz : Nat} (hw : Opened F w) :
    ∃ w' a, Settles (fun k => fread E k n sz w) (w', a) := by
  obtain ⟨fs, l, ⟨i, hi⟩, -, hfs⟩ := F.reads (n := n * sz % wordSize) hw.holds hw.inside
  obtain ⟨w', j, hj⟩ :=
    fseek_settles (w := { w with fs := fs }) (n * sz % wordSize) .SEEK_CUR hw.std hw.file hfs
  refine ⟨w', ⟨(n * sz % wordSize : Nat), l⟩, max i j, ?_⟩
  intro k hk
  have hread : fsRead E k w.f.cursor (n * sz % wordSize) e w.fs = some _ := hi k (le_of_max_le_left hk)
  have hseek : fseek E k (n * sz % wordSize) .SEEK_CUR { w with fs := fs } = some _ :=
    hj k (le_of_max_le_right hk)
  dsimp only
  rw [fread, if_neg (not_not_intro hw.std), hw.file]
  simp only [hread, hseek, Option.bind_eq_bind, Option.bind_some]

theorem returns_of_opened (hw : Opened F w) : c.Returns E W w := by
  cases c with
  | fseek offset seek =>
    obtain ⟨w', n, hn⟩ := fseek_settles offset.toNat seek hw.std hw.file hw.holds
    refine ⟨w', ⟨0, []⟩, n, ?_⟩
    intro k hk
    have hseek : Stdio.fseek E k offset.toNat seek w = some (w', 0) := hn k hk
    dsimp only [Call.run]
    rw [hseek]
    rfl
  | fread n sz => exact fread_settles hw
  | fwrite buf n sz => trivial
  | fputc ch => trivial
  | fputs buf => trivial

end Steps

/-- **Positions and counts.** Over every run of calls on a stream of a file of fixed size, each
`fseek` and `fread` returns, each call that returns leaves the cursor in the file, and each `fread`
counts the bytes that it copied, if and only if what is left of the file is enough for each call that
returns. -/
theorem positions_iff {E : Env} {W : WriteHook} {e : Ptr} {size : Nat} {F : FixedFile E W e size}
    {w : World} (hw : Opened F w) (calls : List Call) (hcalls : ∀ c ∈ calls, c.Unwrapped) :
    Upon (fun w c w' a => c.Step E W w w' a) (fun w c w' a => c.Proper size w w' a) w calls ∧
        Whenever (fun w c w' a => c.Step E W w w' a) (fun w c => c.Returns E W w) w calls ↔
      Upon (fun w c w' a => c.Step E W w w' a) (fun w c _ _ => c.Enough size w) w calls := by
  have hkeep : ∀ t, ∀ c ∈ calls, ∀ t' a, Opened F t → c.Step E W t t' a → c.Proper size t t' a →
      Opened F t' := fun t c hc t' a ht hstep => opened_of_proper ht (hcalls c hc) hstep
  have hexact : ∀ t t' a, ∀ c ∈ calls, Opened F t → c.Step E W t t' a →
      (c.Proper size t t' a ↔ c.Enough size t) :=
    fun t t' a c hc ht hstep => proper_iff ht (hcalls c hc) hstep
  have hiff := upon_iff_upon hexact (fun t t' a c hc => hkeep t c hc t' a) hw
  refine ⟨fun h => hiff.mp h.1, fun h => ⟨hiff.mpr h, ?_⟩⟩
  exact whenever_of_upon (fun _ _ => returns_of_opened) hkeep hw (hiff.mpr h)

/-- A file of three bytes in memory, and a stream that was just opened on it. -/
def threeBytes : World where
  fs := Fs.State.single.modify 2 fun v =>
    { v with type := .FILE, flags.virt := true, data := 0x2000, size := 3 }
  f := ⟨none, 2, 0⟩
  sent := []

/-- No hook is called. -/
def noHook : WriteHook := fun _ _ _ _ m => (0, m)

/-- A file of three bytes. -/
theorem threeBytes_opened :
    Opened (FixedFile.ofVirtual .plain noHook 2 3 (by decide)) threeBytes :=
  ⟨rfl, rfl, ⟨⟨by decide, rfl, rfl, rfl, by decide, by decide⟩, rfl⟩, by decide⟩

/-- A character, and then what is left of the file. -/
theorem three_bytes_counted :
    Upon (fun w c w' a => Call.Step .plain noHook w c w' a) (fun w c w' a => c.Proper 3 w w' a)
        threeBytes [.fputc 65, .fread 1 2] ∧
      Whenever (fun w c w' a => Call.Step .plain noHook w c w' a)
        (fun w c => c.Returns .plain noHook w) threeBytes [.fputc 65, .fread 1 2] := by
  have hstart : threeBytes.f.cursor < 3 := by decide
  have hword : (1 : UInt64).toNat * (2 : UInt64).toNat < wordSize := by decide
  refine (positions_iff threeBytes_opened _ ?_).mpr fun w' a hputc => ⟨hstart, fun _ _ _ => ⟨?_, trivial⟩⟩
  · intro c hc
    rcases List.mem_pair.mp hc with rfl | rfl
    · trivial
    · exact hword
  · obtain ⟨k, hputc⟩ := hputc
    obtain ⟨-, -, -, hcursor⟩ := fputc_cases threeBytes_opened hputc
    rw [Call.Enough, hcursor]
    decide

/-- Four bytes are counted where three are copied, and a character at the end of the file moves the
cursor behind it. -/
theorem fourth_byte_counted :
    (fread .plain 0 1 4 threeBytes).map (fun r => (r.2.ret, r.2.copied.length)) = some (4, 3) ∧
      ((fread .plain 0 1 3 threeBytes).bind fun r => fputc noHook 65 r.1).map (fun r => r.1.f.cursor) =
        some 4 ∧
      ¬ Upon (fun w c w' a => Call.Step .plain noHook w c w' a) (fun w c w' a => c.Proper 3 w w' a)
        threeBytes [.fread 1 4] := by
  have hread : (fread .plain 0 1 4 threeBytes).map (fun r => (r.2.ret, r.2.copied.length)) =
      some (4, 3) := by decide +kernel
  refine ⟨hread, by decide +kernel, ?_⟩
  intro h
  obtain ⟨⟨w', a⟩, hcall, hanswer⟩ := Option.map_eq_some_iff.mp hread
  obtain ⟨hret, hcopied⟩ := Prod.mk.inj hanswer
  have hcount := (h w' a ⟨0, hcall⟩).1.2.2.1
  rw [hret, hcopied] at hcount
  exact absurd hcount (by decide)

end Frosk.Stdio
