import Mathlib.Tactic
import Frosk.UserHeap.Safety

/-!
# User heap: running out

A request that no free chunk can hold is answered with `NULL`, and nothing changes. Two
things stand in the way: `head == NULL` is also how `malloc` knows its first call, so an
empty list becomes the whole heap again, and `free` reads the chunk at `head`; and a size
close to `SIZE_MAX` is rounded up to 0.

* `exhaustion_safe_iff` — running out is harmless exactly if the list is not empty and the
  size can be rounded up.
* `unfreed_wellFormed` — the states of a run are well-formed until it frees a block.
-/

namespace Frosk.UserHeap

open Lib

/-- What the allocator keeps up besides safety: free chunks are in the heap, and headers of
live blocks say at least what was asked for. -/
structure WellFormed (L : Layout) (u : User) (l : List Nat) : Prop extends HeapSafe L u l where
  within  : ∀ c ∈ l, L.heapStart ≤ c ∧ (u.h.range c).2 ≤ L.heapTop
  headers : ∀ b ∈ u.live, b.2 ≤ u.h.size (b.1 - sizeofChunk)

/-- The size rounded up to whole headers, whatever fits into a word. -/
def roundUp (size : Nat) : Nat := (size + 15) / 16 * 16

/-- `malloc` says that it cannot, and a block that is freed into an empty list is the
list. -/
def RunsOut (L : Layout) (u : User) (l : List Nat) (size : Nat) : Prop :=
  (∃ fuel, malloc L size u.h fuel = some (NULL, u.h)) ∧
    (l = [] → ∀ b ∈ u.live, ∃ fuel h', free b.1 u.h fuel = some h' ∧
      FreeList h' [b.1 - sizeofChunk])

/-- The size is rounded up when that does not wrap. -/
theorem align_eq_roundUp {size : Nat} (h : size + 15 < wordSize) :
    align size sizeofChunk = roundUp size := by
  obtain ⟨hle, hlt, hmul⟩ := align_sixteen h
  unfold roundUp sizeofChunk
  omega

/-- Beyond that the size comes out as 0. -/
theorem align_wraps {size : Nat} (hsize : size < wordSize) (h : wordSize ≤ size + 15) :
    align size sizeofChunk = 0 := by
  unfold align sizeofChunk wordSize at *
  rw [if_pos (by omega)]
  omega

section Exhaustion

variable {L : Layout} {u : User} {l : List Nat} {size : Nat}

/-- A free chunk lies within the words. -/
theorem WellFormed.chunk_spec (hw : WellFormed L u l) {c : Nat} (hc : c ∈ l) :
    0 < c ∧ c + sizeofChunk + u.h.size c < wordSize := by
  obtain ⟨hpos, htop⟩ := L.start_spec
  obtain ⟨hle, hrange⟩ := hw.within c hc
  rw [Heap.range] at hrange
  omega

/-- A chunk of the list is not at `NULL` when it is handed out. -/
theorem WellFormed.handed_out (hw : WellFormed L u l) {c : Nat} (hc : c ∈ l) :
    (c + sizeofChunk) % wordSize = c + sizeofChunk ∧ c + sizeofChunk ≠ NULL := by
  have hlt := (hw.chunk_spec hc).2
  exact ⟨Nat.mod_eq_of_lt (by omega), Nat.succ_ne_zero _⟩

/-- An empty list is made the whole heap, however the call ends. -/
theorem malloc_of_nil_ne (hl : FreeList u.h []) (fuel : Nat) :
    malloc L size u.h fuel ≠ some (NULL, u.h) := by
  intro hcall
  have hhead : u.h.head = NULL := hl.path
  obtain ⟨hpos, htop⟩ := L.start_spec
  rw [malloc_of_nil hl] at hcall
  rcases mallocFrom_cases (firstChunk_list L u.h).1 (align size sizeofChunk) with
    ⟨-, fuel', hnone⟩ | ⟨l₁, c, l₂, hsplit, -, fuel', hsome⟩
  · obtain ⟨-, hsame⟩ := Prod.mk.inj (mallocFrom_unique hnone hcall)
    have hstart : L.heapStart = NULL := (congrArg Heap.head hsame).trans hhead
    exact hpos.ne hstart.symm
  · have hc : c ∈ [L.heapStart] := hsplit ▸ by simp
    obtain ⟨hnull, -⟩ := Prod.mk.inj (mallocFrom_unique hsome hcall)
    rw [List.mem_singleton.mp hc] at hnull
    unfold Layout.heapTop NULL sizeofChunk wordSize at *
    omega

/-- There is no chunk to read at `head`. -/
theorem free_of_nil (hl : FreeList u.h []) {p : Nat} (hp : p ≠ NULL) (fuel : Nat) :
    free p u.h fuel = none := by
  have hhead : u.h.head = NULL := hl.path
  simp [free, hhead, hp]

/-- With no chunk large enough `malloc` runs out. -/
theorem runsOut_of_list (hw : WellFormed L u l) (hne : l ≠ [])
    (hsmall : ∀ c ∈ l, u.h.size c < roundUp size) (hsize : size + 15 < wordSize) :
    RunsOut L u l size := by
  refine ⟨?_, fun hnil => absurd hnil hne⟩
  rcases mallocFrom_cases hw.list (align size sizeofChunk) with
    ⟨-, fuel, hnone⟩ | ⟨l₁, c, l₂, rfl, hc, -⟩
  · exact ⟨fuel, (malloc_of_list hw.list hne size fuel).trans hnone⟩
  · have := hsmall c (by simp)
    rw [align_eq_roundUp hsize] at hc
    omega

/-- With no chunk at all it does not run out. -/
theorem not_runsOut_of_nil (hw : WellFormed L u []) : ¬ RunsOut L u [] size :=
  fun ⟨⟨fuel, hcall⟩, _⟩ => malloc_of_nil_ne hw.list fuel hcall

/-- A request that is rounded up to 0 is granted. -/
theorem not_runsOut_of_wrap (hw : WellFormed L u l) (hne : l ≠ []) (hsize : size < wordSize)
    (hwrap : wordSize ≤ size + 15) : ¬ RunsOut L u l size := by
  rintro ⟨⟨fuel, hcall⟩, -⟩
  rw [malloc_of_list hw.list hne, align_wraps hsize hwrap] at hcall
  refine mallocFrom_zero hw.list hne (fun c hc => ?_) hcall rfl
  have := (hw.chunk_spec hc).2
  omega

end Exhaustion

/-- **Running out is safe** exactly if the list is not empty and the size can be rounded
up. -/
theorem exhaustion_safe_iff {L : Layout} {u : User} {l : List Nat} {size : Nat}
    (hw : WellFormed L u l) (hsize : size < wordSize)
    (hsmall : ∀ c ∈ l, u.h.size c < roundUp size) :
    RunsOut L u l size ↔ l ≠ [] ∧ size + 15 < wordSize := by
  constructor
  · intro hr
    have hne : l ≠ [] := by
      rintro rfl
      exact not_runsOut_of_nil hw hr
    refine ⟨hne, ?_⟩
    by_contra hwrap
    exact not_runsOut_of_wrap hw hne hsize (by omega) hr
  · rintro ⟨hne, hsize⟩
    exact runsOut_of_list hw hne hsmall hsize

/-- After the first call, with nothing taken. -/
theorem wellFormed_first (L : Layout) (h : Heap) :
    WellFormed L ⟨firstChunk L h, []⟩ [L.heapStart] := by
  obtain ⟨hl, hsize, -⟩ := firstChunk_list L h
  refine ⟨⟨hl, List.pairwise_singleton .., List.Pairwise.nil, by simp, by simp⟩, ?_, by simp⟩
  intro c hc
  rw [List.mem_singleton.mp hc]
  simp [Heap.range, hsize, Layout.heapTop]

/-- The heap of one chunk is well formed. -/
theorem Grown.wellFormed {L : Layout} {u : User} {c : Nat} (h : Grown L u c) : WellFormed L u [c] := by
  have htop := h.top
  refine ⟨h.safe, ?_, ?_⟩
  · intro d hd
    rw [List.mem_singleton.mp hd]
    exact ⟨h.start, htop.le⟩
  · intro b hb
    obtain ⟨-, hle, hheader⟩ := h.below b hb
    omega

/-- In the invariant the heap is well formed. -/
theorem Inv.wellFormed {L : Layout} {u : User} (h : Inv L u) : ∃ l, WellFormed L u l := by
  rcases h with ⟨hhead, hlive⟩ | ⟨c, hc⟩
  · refine ⟨[], ⟨⟨⟨hhead, by simp⟩, List.Pairwise.nil, ?_, ?_, ?_⟩, by simp, ?_⟩⟩
    all_goals simp [hlive]
  · exact ⟨[c], hc.wellFormed⟩

/-- **Before the first free** the states of a run are well-formed. -/
theorem unfreed_wellFormed (L : Layout) (chunk : Nat → Chunk) (calls : List Call)
    (hl : Whenever (User.Step L) (User.Legal L) (User.start chunk) calls)
    (hk : Whenever (User.Step L) Keeps (User.start chunk) calls) :
    Along (User.Step L) (fun _ _ u _ => ∃ l, WellFormed L u l) (User.start chunk) calls := by
  have hstep : ∀ u a, Inv L u → u.Legal L a ∧ Keeps u a →
      ∃ u' p, u.Step L a u' p ∧ (∃ l, WellFormed L u' l) ∧ Inv L u' := by
    rintro u (size | p) h ⟨hlegal, hkeeps⟩
    · obtain ⟨u', p, hcall, -, h'⟩ := malloc_good h hlegal
      exact ⟨u', p, hcall, h'.wellFormed, h'⟩
    · exact absurd hkeeps id
  exact along_of_invariant hstep (.inl ⟨rfl, rfl⟩) (whenever_and hl hk)

/-- More than the whole heap is asked for. -/
theorem runsOut_low :
    RunsOut Layout.low ⟨firstChunk Layout.low ⟨NULL, fun _ => ⟨NULL, 0⟩⟩, []⟩
      [Layout.low.heapStart] lowHalfTop :=
  (exhaustion_safe_iff (wellFormed_first ..) (by decide) (by decide)).mpr (by decide)

/-- All of the heap but its last 8 bytes, which make no chunk. -/
abbrev wholeHeap : Nat := Layout.low.heapSize - 8

/-- A program that has asked for all of it. -/
def usedUp : User :=
  ⟨{ firstChunk Layout.low ⟨NULL, fun _ => ⟨NULL, 0⟩⟩ with head := NULL },
    [(Layout.low.heapStart + sizeofChunk, wholeHeap)]⟩

/-- A heap that is used up. -/
theorem usedUp_wellFormed : WellFormed Layout.low usedUp [] :=
  ⟨⟨⟨rfl, by simp⟩, List.Pairwise.nil, List.pairwise_singleton .., by decide, by simp⟩, by simp,
    by decide⟩

/-- With the list empty, the heap is handed out again, and nothing can be freed. -/
theorem usedUp_starts_over :
    User.Step Layout.low (User.start fun _ => ⟨NULL, 0⟩) (.malloc wholeHeap) usedUp
        (Layout.low.heapStart + sizeofChunk) ∧
      WellFormed Layout.low usedUp [] ∧ ¬ RunsOut Layout.low usedUp [] 16 ∧
      ∀ fuel, free (Layout.low.heapStart + sizeofChunk) usedUp.h fuel = none :=
  ⟨⟨1, rfl⟩, usedUp_wellFormed, not_runsOut_of_nil usedUp_wellFormed,
    free_of_nil usedUp_wellFormed.list (by decide)⟩

end Frosk.UserHeap
