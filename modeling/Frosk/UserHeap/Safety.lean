import Frosk.UserHeap.Steps

/-!
# User heap: safety

A `User` is the heap with the blocks a program holds, which the code does not
keep: the pointer it was given and the size it asked for.

Main result: `heap_safe_iff`, over every run of `malloc` and `free` from an empty
list in which frees are of live blocks and no request wraps or empties the free
list: the heap stays safe (`HeapSafe`) exactly when the run frees nothing. Dividing
a chunk leaves the whole old size in the header of the block that is handed out,
so the block reaches to the end of the heap as soon as it is freed.
-/

namespace Frosk.UserHeap

open Lib

structure User where
  h    : Heap
  live : List (Nat × Nat)

inductive Call where
  | malloc (size : Nat)
  | free (p : Nat)

/-- One call, with the pointer it returns; `free` returns nothing. -/
def User.call (L : Layout) (u : User) (a : Call) (fuel : Nat) : Option (User × Nat) :=
  match a with
  | .malloc size => (malloc L size u.h fuel).map fun (p, h) =>
    (⟨h, if p = NULL then u.live else (p, size) :: u.live⟩, p)
  | .free p => (free p u.h fuel).map fun h =>
    (⟨h, u.live.filter fun b => b.1 ≠ p⟩, NULL)

def User.Step (L : Layout) (u : User) (a : Call) (u' : User) (p : Nat) : Prop :=
  ∃ fuel, u.call L a fuel = some (u', p)

/-- A request does not wrap and does not take the last free chunk; a free is of
a live block. -/
def User.Legal (L : Layout) (u : User) : Call → Prop
  | .malloc size => size + 31 < wordSize ∧
      ∀ fuel p h, malloc L size u.h fuel = some (p, h) → h.head ≠ NULL
  | .free p => ∃ size, (p, size) ∈ u.live

/-- Two ranges, from the first address to the one after the last. -/
def Clear (a b : Nat × Nat) : Prop := a.2 ≤ b.1 ∨ b.2 ≤ a.1

instance (a b : Nat × Nat) : Decidable (Clear a b) :=
  inferInstanceAs (Decidable (a.2 ≤ b.1 ∨ b.2 ≤ a.1))

/-- A live block, with its header. -/
def block (b : Nat × Nat) : Nat × Nat := (b.1 - sizeofChunk, b.1 + b.2)

/-- Live blocks are disjoint, in the heap, and disjoint from the free chunks,
which ascend and do not overlap. -/
structure HeapSafe (L : Layout) (u : User) (l : List Nat) : Prop where
  list      : FreeList u.h l
  ascending : l.Pairwise fun c d => c < d ∧ (u.h.range c).2 ≤ d
  blocks    : u.live.Pairwise fun b b' => Clear (block b) (block b')
  inside    : ∀ b ∈ u.live, L.heapStart + sizeofChunk ≤ b.1 ∧ b.1 + b.2 ≤ L.heapTop
  apart     : ∀ b ∈ u.live, ∀ c ∈ l, Clear (block b) (u.h.range c)

def SafeAfter (L : Layout) (_ : User) (_ : Call) (u' : User) (_ : Nat) : Prop :=
  ∃ l, HeapSafe L u' l

/-- The call is not a `free`. -/
def Keeps (_ : User) : Call → Prop
  | .malloc _ => True
  | .free _ => False

/-- Nothing allocated, whatever memory holds. -/
def User.start (chunk : Nat → Chunk) : User := ⟨⟨NULL, chunk⟩, []⟩

-- ---------------------------------------------------------------------------
-- The heap while nothing is freed
-- ---------------------------------------------------------------------------

/-- One free chunk at the end, with the blocks below it. The header of every
block still says that it goes on to the end of the heap. -/
structure Grown (L : Layout) (u : User) (c : Nat) : Prop where
  head   : u.h.head = c
  last   : u.h.next c = NULL
  start  : L.heapStart ≤ c
  top    : c + sizeofChunk + u.h.size c = L.heapTop
  blocks : u.live.Pairwise fun b b' => Clear (block b) (block b')
  below  : ∀ b ∈ u.live, L.heapStart + sizeofChunk ≤ b.1 ∧ b.1 + b.2 ≤ c ∧
    b.1 + u.h.size (b.1 - sizeofChunk) = L.heapTop

def Inv (L : Layout) (u : User) : Prop :=
  (u.h.head = NULL ∧ u.live = []) ∨ ∃ c, Grown L u c

/-- The chunk is not null. -/
theorem Grown.pos {L : Layout} {u : User} {c : Nat} (h : Grown L u c) : c ≠ NULL := by
  have hstart := L.start_spec.1
  have hle := h.start
  unfold NULL
  omega

/-- The heap of one chunk is safe. -/
theorem Grown.safe {L : Layout} {u : User} {c : Nat} (h : Grown L u c) : HeapSafe L u [c] := by
  have htop := h.top
  refine ⟨⟨⟨h.head, h.last⟩, ?_⟩, List.pairwise_singleton .., h.blocks, fun b hb => ?_,
    fun b hb d hd => ?_⟩
  · simpa using Ne.symm h.pos
  · obtain ⟨hlo, hhi, _⟩ := h.below b hb
    exact ⟨hlo, by omega⟩
  · rw [List.mem_singleton.mp hd]
    exact .inl (h.below b hb).2.1

/-- The first call finds, or makes, one free chunk at the end of the heap. -/
theorem Inv.grown {L : Layout} {u : User} (h : Inv L u) :
    ∃ c, Grown L ⟨if u.h.head = NULL then firstChunk L u.h else u.h, u.live⟩ c := by
  rcases h with ⟨hnull, hlive⟩ | ⟨c, hc⟩
  · rw [if_pos hnull, hlive]
    refine ⟨L.heapStart, rfl, ?_, le_refl _, ?_, List.Pairwise.nil, by simp⟩
    · simp [firstChunk, Heap.next, Heap.setNext, Heap.setSize]
    · simp [firstChunk, Heap.size, Heap.setNext, Heap.setSize, Layout.heapTop]
  · rw [if_neg (by rw [hc.head]; exact hc.pos)]
    exact ⟨c, hc⟩

/-- A request that is granted comes out of the chunk at the end. -/
theorem malloc_grown {L : Layout} {u : User} {c size : Nat} (h : Grown L u c)
    (hsize : size + 31 < wordSize)
    (hleft : ∀ fuel p h', mallocFrom u.h (align size sizeofChunk) fuel = some (p, h') →
      h'.head ≠ NULL) :
    ∃ fuel p h', mallocFrom u.h (align size sizeofChunk) fuel = some (p, h') ∧
      ∃ d, Grown L ⟨h', if p = NULL then u.live else (p, size) :: u.live⟩ d := by
  obtain ⟨hge, _, hmul⟩ := align_sixteen (x := size) (by omega)
  obtain ⟨hpos, htopW⟩ := L.start_spec
  have htop := h.top
  have hstart := h.start
  have hg : FreeList u.h ([] ++ c :: []) ∧ Ascending u.h ([] ++ c :: []) :=
    ⟨h.safe.list, h.safe.ascending⟩
  set n := align size sizeofChunk with hn
  have hcn : ¬ u.h.head = NULL := by rw [h.head]; exact h.pos
  by_cases hfit : n ≤ u.h.size c
  · have hround : mallocBody u.h n (.head, u.h.head) = .inr (some (.head, c)) := by
      rw [mallocBody, if_neg hcn, h.head, if_pos hfit]
    have hcall : mallocFrom u.h n 1 =
        some ((c + sizeofChunk) % wordSize, grant u.h n .head c) := by
      rw [mallocFrom, iterate_succ_inr hround]
      rfl
    -- taking the whole chunk would leave no free one
    have hlt : n + sizeofChunk < u.h.size c := by
      by_contra hge
      refine hleft 1 _ _ hcall ?_
      have hle : u.h.size c ≤ (n + sizeofChunk) % wordSize := by
        unfold sizeofChunk wordSize at *
        omega
      rw [grant, if_pos hle]
      exact h.last
    have hrange : (u.h.range c).2 < wordSize := by
      rw [Heap.range]
      omega
    obtain ⟨hlist, hrest, hsame⟩ := grant_part hg.1 hg.2 hlt hmul hrange
    rw [show Slot.after [] = .head from rfl] at hlist hrest hsame
    obtain ⟨hhead, hnext⟩ := hlist.path
    have hp : (c + sizeofChunk) % wordSize = c + sizeofChunk := by
      unfold sizeofChunk wordSize at *
      omega
    have hp0 : c + sizeofChunk ≠ NULL := by
      unfold sizeofChunk NULL
      omega
    refine ⟨1, _, _, hcall, c + sizeofChunk + n, ?_⟩
    rw [hp, if_neg hp0]
    refine ⟨hhead, hnext, by omega, ?_, ?_, ?_⟩
    · simp only [hrest]
      omega
    · -- the new block lies above all others
      refine List.pairwise_cons.mpr ⟨?_, h.blocks⟩
      intro b hb
      obtain ⟨_, hhi, _⟩ := h.below b hb
      refine .inr ?_
      simp only [block]
      omega
    · intro b hb
      rcases List.mem_cons.mp hb with rfl | hb
      · have hc : c + sizeofChunk - sizeofChunk = c := by omega
        have hne : c ≠ c + sizeofChunk + n := by unfold sizeofChunk; omega
        simp only [hc, hsame c hne]
        omega
      · obtain ⟨hlo, hhi, hstale⟩ := h.below b hb
        have hne : b.1 - sizeofChunk ≠ c + sizeofChunk + n := by unfold sizeofChunk at *; omega
        simp only [hsame _ hne]
        omega
  · -- nothing is large enough
    have hround : mallocBody u.h n (.head, u.h.head) = .inl (.next c, NULL) := by
      rw [mallocBody, if_neg hcn, h.head, if_neg hfit, h.last]
    have hstop : mallocBody u.h n (.next c, NULL) = .inr none := by
      rw [mallocBody, if_pos rfl]
    refine ⟨2, NULL, u.h, ?_, c, ?_⟩
    · rw [mallocFrom, iterate_succ_inl hround, iterate_succ_inr hstop]
      rfl
    · rw [if_pos rfl]
      exact h

/-- A legal `malloc` returns and keeps the invariant. -/
theorem malloc_good {L : Layout} {u : User} {size : Nat} (h : Inv L u)
    (hl : u.Legal L (.malloc size)) :
    ∃ u' p, u.Step L (.malloc size) u' p ∧ SafeAfter L u (.malloc size) u' p ∧ Inv L u' := by
  obtain ⟨c, hc⟩ := h.grown
  obtain ⟨fuel, p, h', hcall, d, hd⟩ := malloc_grown hc hl.1 hl.2
  refine ⟨_, p, ⟨fuel, ?_⟩, ⟨[d], hd.safe⟩, .inr ⟨d, hd⟩⟩
  have hm : malloc L size u.h fuel = some (p, h') := hcall
  rw [User.call, hm]
  rfl

/-- **A free breaks the list**: the block is put in front of the last chunk and
reaches over it. -/
theorem free_bad {L : Layout} {u u' : User} {p r : Nat} (h : Inv L u) (hl : u.Legal L (.free p))
    (hstep : u.Step L (.free p) u' r) : ¬ SafeAfter L u (.free p) u' r := by
  obtain ⟨size, hmem⟩ := hl
  obtain ⟨c, hc⟩ : ∃ c, Grown L u c := by
    rcases h with ⟨_, hlive⟩ | hc
    · rw [hlive] at hmem
      cases hmem
    · exact hc
  obtain ⟨hlo, hhi, hstale⟩ := hc.below _ hmem
  obtain ⟨hpos, htopW⟩ := L.start_spec
  have htop := hc.top
  simp only at hlo hhi hstale
  have hp : p ≠ NULL := by
    unfold NULL sizeofChunk at *
    omega
  have hchunk : wsub p sizeofChunk = p - sizeofChunk := wsub_eq (by omega) (by omega)
  have hbelow : p - sizeofChunk < u.h.head := by
    rw [hc.head]
    unfold sizeofChunk at *
    omega
  have hborder : ¬ u.h.chunkTop (p - sizeofChunk) = u.h.head := by
    have hsum : p - sizeofChunk + sizeofChunk + u.h.size (p - sizeofChunk) = L.heapTop := by
      omega
    rw [Heap.chunkTop, hsum, hc.head, Nat.mod_eq_of_lt htopW]
    unfold sizeofChunk at *
    omega
  obtain ⟨fuel, hcall⟩ := hstep
  have hfree : free p u.h fuel = some (freeFirst u.h (p - sizeofChunk)) := by
    rw [free, hchunk]
    simp only [if_neg hp, if_pos hbelow]
  rw [User.call, hfree] at hcall
  obtain ⟨rfl, _⟩ := Prod.mk.inj (Option.some.inj hcall)
  rintro ⟨l, hsafe⟩
  -- the list starts with the freed block and goes on at the last chunk
  set h' := freeFirst u.h (p - sizeofChunk) with hh'
  have hheap : h' = { u.h.setNext (p - sizeofChunk) u.h.head with head := p - sizeofChunk } := by
    rw [hh', freeFirst, if_neg hborder]
  have hnext : h'.next (p - sizeofChunk) = c := by
    rw [hheap, ← hc.head]
    show (u.h.setNext (p - sizeofChunk) u.h.head).next (p - sizeofChunk) = _
    rw [Heap.setNext_next, if_pos rfl]
  have hsize : h'.size (p - sizeofChunk) = u.h.size (p - sizeofChunk) := by
    rw [hheap]
    exact Heap.setNext_size ..
  have hpath : Path h'.next (p - sizeofChunk) l NULL := by
    have hp := hsafe.list.path
    rw [show h'.head = p - sizeofChunk by rw [hheap]] at hp
    exact hp
  cases l with
  | nil =>
    have hz : p - sizeofChunk = NULL := hpath
    unfold NULL sizeofChunk at *
    omega
  | cons a l =>
    obtain ⟨rfl, hpath⟩ := hpath
    rw [hnext] at hpath
    cases l with
    | nil => exact hc.pos hpath
    | cons b l =>
      obtain ⟨rfl, _⟩ := hpath
      have hasc := (List.pairwise_cons.mp hsafe.ascending).1 c (List.mem_cons_self ..)
      simp only [Heap.range, hsize] at hasc
      unfold sizeofChunk at *
      omega

-- ---------------------------------------------------------------------------
-- Whole runs
-- ---------------------------------------------------------------------------

/-- More fuel changes no result of a call. -/
theorem call_fueled (L : Layout) : Fueled (User.call L) := by
  intro u a n m r hle h
  cases a with
  | malloc size =>
    rw [User.call, Option.map_eq_some_iff] at h ⊢
    obtain ⟨found, hfound, hr⟩ := h
    exact ⟨found, malloc_mono hfound hle, hr⟩
  | free p =>
    rw [User.call, Option.map_eq_some_iff] at h ⊢
    obtain ⟨h', hfree, hr⟩ := h
    exact ⟨h', free_mono hfree hle, hr⟩

/-- **User heap safety**, over whole runs, exactly when nothing is freed. -/
theorem heap_safe_iff (L : Layout) (chunk : Nat → Chunk) (calls : List Call)
    (hl : Whenever (User.Step L) (User.Legal L) (User.start chunk) calls) :
    Along (User.Step L) (SafeAfter L) (User.start chunk) calls ↔
      Whenever (User.Step L) Keeps (User.start chunk) calls := by
  have hgood : ∀ u a, Inv L u → u.Legal L a → Keeps u a →
      ∃ u' p, User.Step L u a u' p ∧ SafeAfter L u a u' p ∧ Inv L u' := by
    intro u a h hl hk
    cases a with
    | malloc size => exact malloc_good h hl
    | free p => exact absurd hk id
  have hbad : ∀ u a u' p, Inv L u → u.Legal L a → ¬ Keeps u a → User.Step L u a u' p →
      ¬ SafeAfter L u a u' p := by
    intro u a u' p h hl hk hstep
    cases a with
    | malloc size => exact absurd trivial hk
    | free p => exact free_bad h hl hstep
  have hdet : ∀ u a u₁ p₁ u₂ p₂, User.Step L u a u₁ p₁ → User.Step L u a u₂ p₂ →
      u₁ = u₂ ∧ p₁ = p₂ := by
    rintro u a u₁ p₁ u₂ p₂ ⟨n, hn⟩ ⟨m, hm⟩
    exact Prod.mk.inj ((call_fueled L).unique hn hm)
  exact along_iff_whenever hgood hbad hdet (.inl ⟨rfl, rfl⟩) hl

/-- `Legal` on runs that can be computed. -/
def User.legalCheck (L : Layout) (u : User) : Call → Bool
  | .malloc size => decide (size + 31 < wordSize) &&
      match malloc L size u.h 4 with
      | some (_, h) => h.head != NULL
      | none => false
  | .free p => u.live.any fun b => b.1 == p

/-- What the check accepts is legal. -/
theorem legal_of_legalCheck {L : Layout} {u : User} {a : Call} (h : u.legalCheck L a = true) :
    u.Legal L a := by
  cases a with
  | malloc size =>
    rw [User.legalCheck, Bool.and_eq_true, decide_eq_true_eq] at h
    refine ⟨h.1, ?_⟩
    intro fuel p h' hcall
    have hleft := h.2
    cases hm : malloc L size u.h 4 with
    | none => simp [hm] at hleft
    | some r =>
      rw [hm, bne_iff_ne] at hleft
      obtain ⟨p₀, h₀⟩ := r
      obtain ⟨_, rfl⟩ := Prod.mk.inj (malloc_unique hcall hm)
      exact hleft
  | free p =>
    rw [User.legalCheck, List.any_eq_true] at h
    obtain ⟨⟨q, size⟩, hmem, hq⟩ := h
    obtain rfl : q = p := by simpa using hq
    exact ⟨size, hmem⟩

/-- A program loaded at the bottom of user space. -/
def Layout.low : Layout := ⟨uspaceBot + 8, by decide, by decide⟩

/-- A run that the check accepts is legal. -/
theorem legal_of_check {calls : List Call}
    (h : checkRun (fun u a => User.call Layout.low u a 4)
      (fun u a => decide (u.legalCheck Layout.low a = true))
      (User.start fun _ => ⟨NULL, 0⟩) calls = true) :
    Whenever (User.Step Layout.low) (User.Legal Layout.low) (User.start fun _ => ⟨NULL, 0⟩) calls :=
  whenever_mono (fun _ _ => legal_of_legalCheck)
    (whenever_of_checkRun ((call_fueled Layout.low).computes 4) h)

/-- Three blocks, none of them freed. -/
theorem heap_safe_three :
    Along (User.Step Layout.low) (SafeAfter Layout.low) (User.start fun _ => ⟨NULL, 0⟩)
      [.malloc 16, .malloc 0, .malloc 100] :=
  (heap_safe_iff Layout.low (fun _ => ⟨NULL, 0⟩) [.malloc 16, .malloc 0, .malloc 100]
    (legal_of_check (by decide +kernel))).mpr
    ⟨trivial, fun _ _ _ => ⟨trivial, fun _ _ _ => ⟨trivial, fun _ _ _ => trivial⟩⟩⟩

/-- A block of 16 bytes is allocated and freed: the free list then holds the
whole heap twice, the second time without its first 32 bytes. -/
theorem free_overlaps :
    Whenever (User.Step Layout.low) (User.Legal Layout.low) (User.start fun _ => ⟨NULL, 0⟩)
        [.malloc 16, .free 0x200020] ∧
      ¬ Along (User.Step Layout.low) (SafeAfter Layout.low) (User.start fun _ => ⟨NULL, 0⟩)
        [.malloc 16, .free 0x200020] := by
  refine ⟨legal_of_check (by decide +kernel), ?_⟩
  intro h
  have hcheck := checkPost_of_along ((call_fueled Layout.low).computes 4)
    (q := fun _ _ u _ => u.h.head == NULL || u.h.next u.h.head == NULL ||
      (u.h.range u.h.head).2 ≤ u.h.next u.h.head) (fun u a u' p hsafe => ?_) h
  · exact absurd hcheck (by decide +kernel)
  · -- the first two chunks of a safe list do not overlap
    obtain ⟨l, hl⟩ := hsafe
    have hpath := hl.list.path
    cases l with
    | nil => simp [show u'.h.head = NULL from hpath]
    | cons a l =>
      obtain ⟨hhead, hpath⟩ := hpath
      cases l with
      | nil => simp [hhead, show u'.h.next a = NULL from hpath]
      | cons b l =>
        have hnext : u'.h.next a = b := hpath.1
        have hasc := (List.pairwise_cons.mp hl.ascending).1 b (List.mem_cons_self ..)
        simp [hhead, hnext, hasc.2]

end Frosk.UserHeap
