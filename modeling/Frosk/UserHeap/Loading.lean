import Mathlib.Tactic
import Frosk.Scheduler.Spawn
import Frosk.UserHeap.Safety

/-!
# User heap: what the kernel loaded

Two components decide what is behind the zeros of a program. The linker script puts
`_heap_bottom` there, and `malloc` makes its first chunk there; `uspawn` puts the
preamble, the array of arguments and their texts there. Neither knows of the other:
the header of the first chunk is written over the preamble.

Main result: `heap_avoids_iff`, a run of `malloc` calls stays clear of what `uspawn`
stored exactly if there are none.
-/

namespace Frosk.UserHeap

open Lib Scheduler

-- ---------------------------------------------------------------------------
-- The two layouts
-- ---------------------------------------------------------------------------

/-- A program as `prgm.ld` links it: the zeros begin at a multiple of 8, and there is
room for a heap behind them below `HALF_LOW`. -/
structure Program where
  csz     : Nat
  bsz     : Nat
  aligned : csz % 8 = 0
  low     : uspaceBot + csz + bsz < halfLow
  fits    : align (uspaceBot + csz + bsz) 16 + sizeofChunk ≤ halfLow

/-- The end of the zeros. -/
def Program.bssEnd (P : Program) : Nat := uspaceBot + P.csz + P.bsz

/-- The heap starts at the first 16 bytes behind the bss. -/
theorem Program.align_bssEnd (P : Program) :
    P.bssEnd ≤ align P.bssEnd 16 ∧ align P.bssEnd 16 < P.bssEnd + 16 ∧ align P.bssEnd 16 % 16 = 0 := by
  refine align_sixteen ?_
  have hlow := P.low
  unfold Program.bssEnd halfLow lowHalfTop wordSize at *
  omega

/-- `_heap_bottom = ALIGN(16)`. -/
def Program.layout (P : Program) : Layout where
  heapBottom := align P.bssEnd 16
  pos := by
    have hle := P.align_bssEnd.1
    have hbot : 0 < uspaceBot := by decide
    have hend : uspaceBot ≤ P.bssEnd := by
      unfold Program.bssEnd
      omega
    omega
  fits := P.fits

/-- Where `uspawn` stores preamble, array and texts. -/
def Program.placed (P : Program) (I : Image) (argv : List CStr) : Nat × Nat :=
  (P.bssEnd, uspaceBot + wholeSize I P.csz P.bsz argv)

/-- The first chunk is where the preamble is. -/
theorem Program.heapStart_placed (P : Program) (I : Image) (argv : List CStr) :
    ¬ Clear (P.layout.heapStart, P.layout.heapStart + sizeofChunk) (P.placed I argv) := by
  obtain ⟨hle, hlt, hmul⟩ := P.align_bssEnd
  have hstart : P.layout.heapStart = align P.bssEnd 16 := if_neg fun hne => hne hmul
  have hlong := I.long
  rw [hstart]
  unfold Clear Program.placed wholeSize argvOffset
  unfold Program.bssEnd sizeofChunk at *
  dsimp only
  omega

-- ---------------------------------------------------------------------------
-- What malloc writes
-- ---------------------------------------------------------------------------

/-- The chunk whose header has the slot; `head` is a variable of the program. -/
def Slot.header : Slot → List Nat
  | .head => []
  | .next c => [c]

/-- The headers that taking a chunk writes. -/
def grantWrites (h : Heap) (size : Nat) (pnext : Slot) (ch : Nat) : List Nat :=
  if h.size ch ≤ (size + sizeofChunk) % wordSize then pnext.header
  else
    let h₁ := h.store ((ch + sizeofChunk * (1 + size / sizeofChunk)) % wordSize) pnext
    let h₂ := h₁.setNext (h₁.load pnext) (h₁.next ch)
    pnext.header ++ [h₁.load pnext, h₂.load pnext]

/-- The headers that a call of `malloc` writes. -/
def mallocWrites (L : Layout) (size : Nat) (h : Heap) (fuel : Nat) : Option (List Nat) :=
  let first := if h.head = NULL then [L.heapStart] else []
  let h := if h.head = NULL then firstChunk L h else h
  let size := align size sizeofChunk
  (iterate (mallocBody h size) fuel (.head, h.head)).map fun
    | none => first
    | some (pnext, ch) => first ++ grantWrites h size pnext ch

/-- A store changes one header only. -/
theorem store_chunk (h : Heap) (v : Nat) (pnext : Slot) {c : Nat} (hc : c ∉ pnext.header) :
    (h.store v pnext).chunk c = h.chunk c := by
  cases pnext with
  | head => rfl
  | next d =>
    have hne : c ≠ d := by simpa [Slot.header] using hc
    exact Function.update_of_ne hne ..

/-- A header that is not written stays as it is. -/
theorem grant_chunk (h : Heap) (size : Nat) (pnext : Slot) (ch : Nat) {c : Nat}
    (hc : c ∉ grantWrites h size pnext ch) : (grant h size pnext ch).chunk c = h.chunk c := by
  unfold grant
  unfold grantWrites at hc
  split at hc
  · rename_i hfit
    rw [if_pos hfit]
    exact store_chunk h _ pnext hc
  · rename_i hfit
    rw [if_neg hfit]
    simp only [List.mem_append, List.mem_cons, List.not_mem_nil, or_false, not_or] at hc ⊢
    obtain ⟨hslot, hnext, hsize⟩ := hc
    have hstored := store_chunk h ((ch + sizeofChunk * (1 + size / sizeofChunk)) % wordSize) pnext hslot
    generalize h.store ((ch + sizeofChunk * (1 + size / sizeofChunk)) % wordSize) pnext = h₁ at *
    have hset : (h₁.setNext (h₁.load pnext) (h₁.next ch)).chunk c = h₁.chunk c :=
      Function.update_of_ne hnext ..
    generalize h₁.setNext (h₁.load pnext) (h₁.next ch) = h₂ at *
    calc (h₂.setSize (h₂.load pnext) _).chunk c = h₂.chunk c := Function.update_of_ne hsize ..
      _ = h₁.chunk c := hset
      _ = h.chunk c := hstored

/-- So `malloc` changes the headers that it writes. -/
theorem malloc_chunk {L : Layout} {size fuel p : Nat} {h h' : Heap}
    (hcall : malloc L size h fuel = some (p, h')) :
    ∃ ws, mallocWrites L size h fuel = some ws ∧ ∀ c ∉ ws, h'.chunk c = h.chunk c := by
  rw [malloc, mallocFrom, Option.map_eq_some_iff] at hcall
  obtain ⟨found, hfound, hr⟩ := hcall
  have hfirst : ∀ c ∉ (if h.head = NULL then [L.heapStart] else []),
      (if h.head = NULL then firstChunk L h else h).chunk c = h.chunk c := by
    intro c hc
    split at hc
    · rename_i hnull
      have hne : c ≠ L.heapStart := by simpa using hc
      rw [if_pos hnull]
      calc (firstChunk L h).chunk c = _ := Function.update_of_ne hne ..
        _ = h.chunk c := Function.update_of_ne hne ..
    · rename_i hnull
      rw [if_neg hnull]
  unfold mallocWrites
  dsimp only
  rw [hfound, Option.map_some]
  cases found with
  | none =>
    obtain ⟨_, rfl⟩ := Prod.mk.inj hr
    exact ⟨_, rfl, hfirst⟩
  | some x =>
    obtain ⟨_, rfl⟩ := Prod.mk.inj hr
    refine ⟨_, rfl, ?_⟩
    intro c hc
    rw [List.mem_append, not_or] at hc
    rw [grant_chunk _ _ _ _ hc.2]
    exact hfirst c hc.1

-- ---------------------------------------------------------------------------
-- Runs
-- ---------------------------------------------------------------------------

/-- What the call writes and what it hands out are clear of what `uspawn` stored. -/
def Avoids (P : Program) (I : Image) (argv : List CStr) (u : User) (size : Nat) (_ : User) (p : Nat) :
    Prop :=
  (∀ fuel ws, mallocWrites P.layout size u.h fuel = some ws →
    ∀ c ∈ ws, Clear (c, c + sizeofChunk) (P.placed I argv)) ∧
  (p ≠ NULL → Clear (p, p + size) (P.placed I argv))

def MallocStep (P : Program) (u : User) (size : Nat) (u' : User) (p : Nat) : Prop :=
  u.Step P.layout (.malloc size) u' p

/-- The first call writes over the preamble. -/
theorem first_malloc (P : Program) (I : Image) (argv : List CStr) (chunk : Nat → Chunk)
    {size p : Nat} {u : User} (hstep : MallocStep P (User.start chunk) size u p) :
    ¬ Avoids P I argv (User.start chunk) size u p := by
  intro ⟨hwrites, _⟩
  obtain ⟨fuel, hcall⟩ := hstep
  obtain ⟨r, hmalloc, _⟩ := Option.map_eq_some_iff.mp hcall
  rw [malloc, mallocFrom, Option.map_eq_some_iff] at hmalloc
  obtain ⟨found, hfound, _⟩ := hmalloc
  have hnull : (User.start chunk).h.head = NULL := rfl
  have hmem : ∃ ws, mallocWrites P.layout size (User.start chunk).h fuel = some ws ∧
      P.layout.heapStart ∈ ws := by
    unfold mallocWrites
    dsimp only
    rw [hfound, if_pos hnull, Option.map_some]
    cases found with
    | none => exact ⟨_, rfl, List.mem_singleton_self _⟩
    | some x => exact ⟨_, rfl, List.mem_append_left _ (List.mem_singleton_self _)⟩
  obtain ⟨ws, hws, hin⟩ := hmem
  exact P.heapStart_placed I argv (hwrites fuel ws hws _ hin)

/-- Whatever the program and its arguments are, a run of `malloc` calls stays clear of
what `uspawn` stored if and only if it has no call. -/
theorem heap_avoids_iff (P : Program) (I : Image) (argv : List CStr) (chunk : Nat → Chunk)
    (sizes : List Nat) :
    Along (MallocStep P) (Avoids P I argv) (User.start chunk) sizes ↔ sizes = [] := by
  constructor
  · intro halong
    cases sizes with
    | nil => rfl
    | cons size sizes =>
      obtain ⟨u, p, hstep, havoids, _⟩ := halong
      exact absurd havoids (first_malloc P I argv chunk hstep)
  · rintro rfl
    exact trivial

/-- The smallest program, with a preamble of the least length. -/
def smallProgram : Program := ⟨8, 0, by decide, by decide, by decide⟩

/-- Its first call returns the block behind the header that lies in the preamble. -/
theorem malloc_overwrites_preamble :
    (∃ u, MallocStep smallProgram (User.start fun _ => ⟨NULL, 0⟩) 16 u 0x200020) ∧
    ¬ Along (MallocStep smallProgram)
      (Avoids smallProgram ⟨List.replicate 29 0x90, by simp, 2⟩ []) (User.start fun _ => ⟨NULL, 0⟩)
      [16] := by
  constructor
  · have hcall : ((User.start fun _ => ⟨NULL, 0⟩).call smallProgram.layout (.malloc 16) 4).map
        Prod.snd = some 0x200020 := by
      decide +kernel
    obtain ⟨⟨u, p⟩, hu, hp⟩ := Option.map_eq_some_iff.mp hcall
    obtain rfl : p = 0x200020 := hp
    exact ⟨u, 4, hu⟩
  · rintro ⟨u, p, hstep, havoids, _⟩
    exact first_malloc smallProgram _ [] _ hstep havoids

end Frosk.UserHeap
