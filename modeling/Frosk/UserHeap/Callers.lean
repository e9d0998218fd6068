import Mathlib.Tactic
import Frosk.Lib.Bytes
import Frosk.UserHeap.Exhaustion

/-!
# User heap: calloc and realloc

The embedding of `calloc` and `realloc` of `malloc.c` and of the byte loops they use. Both
take what `malloc` returns without looking: `calloc` clears it, and `realloc` copies to it
and frees the old block.

Headers of chunks are records apart from the bytes of the blocks, as in the rest of the
heap: in a well-formed state no header is inside a block.

Main result: `callers_clean_iff`, with the exact conditions under which the two fail
cleanly and otherwise give the block that was asked for, in a well-formed state. Every
state before the first free is one, by `unfreed_wellFormed`; after it chunks overlap.
-/

namespace Frosk.UserHeap

open Lib

/-- A program: its heap and the bytes of its blocks. -/
structure Prog where
  u   : User
  mem : Memory

/-- `memset`. -/
def memset (p : Nat) (value : UInt8) (num : Nat) (mem : Memory) : Option Memory :=
  if num = 0 then some mem
  else if p = NULL then none
  else some (mem.blit p (List.replicate num value))

/-- `memcpy`. -/
def memcpy (dest src size : Nat) (mem : Memory) : Option Memory :=
  if size = 0 then some mem
  else if dest = NULL ∨ src = NULL then none
  else some (mem.copy dest src size)

/-- `calloc`. -/
def calloc (L : Layout) (count size : Nat) (s : Prog) (fuel : Nat) : Option (Nat × Prog) := do
  let (u, p) ← s.u.call L (.malloc (count * size % wordSize)) fuel
  let mem ← memset p 0 (count * size % wordSize) s.mem
  some (p, ⟨u, mem⟩)

/-- `realloc`. -/
def realloc (L : Layout) (old size : Nat) (s : Prog) (fuel : Nat) : Option (Nat × Prog) :=
  if old ≠ NULL then do
    let chunk := wsub old sizeofChunk
    let copySize := if s.u.h.size chunk < size then s.u.h.size chunk else size
    let (u, new) ← s.u.call L (.malloc size) fuel
    let mem ← memcpy new old copySize s.mem
    let (u, _) ← u.call L (.free old) fuel
    some (new, ⟨u, mem⟩)
  else do
    let (u, new) ← s.u.call L (.malloc size) fuel
    some (new, ⟨u, s.mem⟩)

-- ---------------------------------------------------------------------------
-- What they should do
-- ---------------------------------------------------------------------------

/-- The size, rounded up, fits into a word, and a chunk can hold it. Before the first call
the chunk is the whole heap. -/
def Possible (L : Layout) (u : User) (l : List Nat) (n : Nat) : Prop :=
  roundUp n < wordSize ∧ ((∃ c ∈ l, roundUp n ≤ u.h.size c) ∨
    (l = [] ∧ u.live = [] ∧ roundUp n ≤ L.heapSize))

/-- The call gave nothing and changed nothing that the program has. -/
structure Refused (L : Layout) (s s' : Prog) (p : Nat) : Prop where
  null : p = NULL
  mem  : s'.mem = s.mem
  live : s'.u.live = s.u.live
  safe : ∃ l, HeapSafe L s'.u l

/-- The call gave a block of `n` bytes, which is clear of all others. -/
structure Handed (L : Layout) (s' : Prog) (p n : Nat) : Prop where
  nonnull : p ≠ NULL
  live    : (p, n) ∈ s'.u.live
  blocks  : s'.u.live.Pairwise fun b b' => Clear (block b) (block b')
  inside  : ∀ b ∈ s'.u.live, L.heapStart + sizeofChunk ≤ b.1 ∧ b.1 + b.2 ≤ L.heapTop

def CallocClean (L : Layout) (s : Prog) (l : List Nat) (count size : Nat) : Prop :=
  ∃ fuel p s', calloc L count size s fuel = some (p, s') ∧
    (Possible L s.u l (count * size) →
      Handed L s' p (count * size) ∧ ∀ i < count * size, s'.mem (p + i) = 0) ∧
    (¬ Possible L s.u l (count * size) → Refused L s s' p)

/-- The old block is at `old` and has `n` bytes. -/
def ReallocClean (L : Layout) (s : Prog) (l : List Nat) (old n size : Nat) : Prop :=
  ∃ fuel p s', realloc L old size s fuel = some (p, s') ∧
    (Possible L s.u l size →
      Handed L s' p size ∧ ∀ i < min n size, s'.mem (p + i) = s.mem (old + i)) ∧
    (¬ Possible L s.u l size → Refused L s s' p)

-- ---------------------------------------------------------------------------
-- malloc in any well-formed state
-- ---------------------------------------------------------------------------

/-- A size is rounded up to 16 bytes. -/
theorem roundUp_spec (n : Nat) : n ≤ roundUp n ∧ roundUp n % 16 = 0 := by
  unfold roundUp
  omega

theorem roundUp_lt_iff (n : Nat) : roundUp n < wordSize ↔ n + 15 < wordSize := by
  unfold roundUp wordSize
  omega

section Taking

variable {L : Layout} {u : User} {h' : Heap} {l₁ l₂ cs : List Nat} {c n : Nat}

/-- A block is taken from the lower end of the chunk `c`, and at most some of the chunk
above it stays in the list. -/
theorem WellFormed.take (hw : WellFormed L u (l₁ ++ c :: l₂)) (hn : n ≤ u.h.size c)
    (hlist : FreeList h' (l₁ ++ (cs ++ l₂))) (hasc : Ascending h' cs)
    (hcs : ∀ r ∈ cs, c + sizeofChunk + n ≤ r ∧ (h'.range r).2 ≤ (u.h.range c).2)
    (hsame : ∀ d, d ∉ cs → h'.size d = u.h.size d) :
    WellFormed L ⟨h', (c + sizeofChunk, n) :: u.live⟩ (l₁ ++ (cs ++ l₂)) := by
  obtain ⟨hasc₁, hasc₂, hlow⟩ := List.pairwise_append.mp hw.ascending
  obtain ⟨hhigh, hasc₂⟩ := List.pairwise_cons.mp hasc₂
  have hc : c ∈ l₁ ++ c :: l₂ := by simp
  have hsame' : ∀ d, d ∉ cs → h'.range d = u.h.range d := fun d hd => by
    rw [Heap.range, Heap.range, hsame d hd]
  -- the other chunks keep their places
  have hold₁ : ∀ d ∈ l₁, d < c ∧ (h'.range d).2 ≤ c ∧ h'.range d = u.h.range d := by
    intro d hd
    obtain ⟨hlt, hle⟩ := hlow d hd c (List.mem_cons_self ..)
    have hcs' : d ∉ cs := fun hmem => by
      have := (hcs d hmem).1
      omega
    rw [hsame' d hcs']
    exact ⟨hlt, hle, rfl⟩
  have hold₂ : ∀ d ∈ l₂, (u.h.range c).2 ≤ d ∧ h'.range d = u.h.range d := by
    intro d hd
    have hle := (hhigh d hd).2
    refine ⟨hle, hsame' d ?_⟩
    intro hmem
    have := (hcs d hmem).2
    simp only [Heap.range] at this hle
    unfold sizeofChunk at *
    omega
  have hsplit : ∀ d ∈ l₁ ++ (cs ++ l₂), (d ∈ l₁ ++ c :: l₂ ∧ h'.range d = u.h.range d ∧
      (d < c ∧ (h'.range d).2 ≤ c ∨ (u.h.range c).2 ≤ d)) ∨
      (c + sizeofChunk + n ≤ d ∧ (h'.range d).2 ≤ (u.h.range c).2) := by
    intro d hd
    rcases List.mem_append.mp hd with hd | hd
    · obtain ⟨hlt, hle, heq⟩ := hold₁ d hd
      exact .inl ⟨by simp [hd], heq, .inl ⟨hlt, hle⟩⟩
    · rcases List.mem_append.mp hd with hd | hd
      · exact .inr (hcs d hd)
      · obtain ⟨hle, heq⟩ := hold₂ d hd
        exact .inl ⟨by simp [hd], heq, .inr hle⟩
  have hblock : block (c + sizeofChunk, n) = (c, c + sizeofChunk + n) := by
    simp [block]
  have hrange : u.h.range c = (c, c + sizeofChunk + u.h.size c) := rfl
  refine ⟨⟨hlist, ?_, ?_, ?_, ?_⟩, ?_, ?_⟩
  · refine List.pairwise_append.mpr ⟨?_, List.pairwise_append.mpr ⟨hasc, ?_, ?_⟩, ?_⟩
    · refine hasc₁.imp_of_mem fun {d e} hd _ hde => ?_
      rwa [(hold₁ d hd).2.2]
    · refine hasc₂.imp_of_mem fun {d e} hd _ hde => ?_
      rwa [(hold₂ d hd).2]
    · intro d hd e he
      have hde := (hcs d hd).2.trans (hold₂ e he).1
      refine ⟨?_, hde⟩
      simp only [Heap.range] at hde
      unfold sizeofChunk at *
      omega
    · intro d hd e he
      obtain ⟨hlt, hle, -⟩ := hold₁ d hd
      have hce : c ≤ e := by
        rcases List.mem_append.mp he with he | he
        · have := (hcs e he).1
          omega
        · exact (hhigh e he).1.le
      exact ⟨hlt.trans_le hce, hle.trans hce⟩
  · refine List.pairwise_cons.mpr ⟨?_, hw.blocks⟩
    intro b hb
    have hclear := hw.apart b hb c hc
    rw [hblock]
    simp only [Clear, hrange] at hclear ⊢
    omega
  · intro b hb
    rcases List.mem_cons.mp hb with rfl | hb
    · obtain ⟨hlo, hhi⟩ := hw.within c hc
      simp only [hrange] at hhi ⊢
      omega
    · exact hw.inside b hb
  · intro b hb d hd
    rcases List.mem_cons.mp hb with rfl | hb
    · rw [hblock]
      simp only [Clear, Heap.range] at hsplit ⊢
      rcases hsplit d hd with ⟨-, -, hcase⟩ | ⟨hlo, -⟩ <;> omega
    · rcases hsplit d hd with ⟨hmem, heq, -⟩ | ⟨hlo, hhi⟩
      · rw [heq]
        exact hw.apart b hb d hmem
      · have hclear := hw.apart b hb c hc
        simp only [Clear, Heap.range] at hclear hhi ⊢
        omega
  · intro d hd
    obtain ⟨hlo, hhi⟩ := hw.within c hc
    rcases hsplit d hd with ⟨hmem, heq, -⟩ | ⟨hle, hle'⟩
    · rw [heq]
      exact hw.within d hmem
    · exact ⟨by omega, hle'.trans hhi⟩
  · intro b hb
    rcases List.mem_cons.mp hb with rfl | hb
    · have hc' : c ∉ cs := fun hmem => by
        have := (hcs c hmem).1
        unfold sizeofChunk at *
        omega
      simp only [Nat.add_sub_cancel, hsame c hc']
      exact hn
    · have hb' : b.1 - sizeofChunk ∉ cs := fun hmem => by
        obtain ⟨hlo, hhi⟩ := hcs _ hmem
        have hclear := hw.apart b hb c hc
        simp only [Clear, block, Heap.range] at hclear hhi
        unfold sizeofChunk at *
        omega
      rw [hsame _ hb']
      exact hw.headers b hb

end Taking

section Malloc

variable {L : Layout} {u : User} {l : List Nat} {n : Nat}

/-- **`malloc` in any well-formed state** with a list: no chunk can hold the request and
nothing changes, or the state is well-formed with one block more. -/
theorem malloc_spec (hw : WellFormed L u l) (hne : l ≠ []) (hn : n + 15 < wordSize) :
    ((∀ c ∈ l, u.h.size c < roundUp n) ∧ u.Step L (.malloc n) u NULL) ∨
    ∃ c ∈ l, roundUp n ≤ u.h.size c ∧ ∃ h' l',
      u.Step L (.malloc n) ⟨h', (c + sizeofChunk, n) :: u.live⟩ (c + sizeofChunk) ∧
      WellFormed L ⟨h', (c + sizeofChunk, n) :: u.live⟩ l' ∧
      (l' = [] ↔ l = [c] ∧ u.h.size c ≤ roundUp n + sizeofChunk) := by
  obtain ⟨hle, hmul⟩ := roundUp_spec n
  rcases mallocFrom_cases hw.list (roundUp n) with
    ⟨hsmall, fuel, hnone⟩ | ⟨l₁, c, l₂, rfl, hc, fuel, hsome⟩
  · refine .inl ⟨hsmall, fuel, ?_⟩
    rw [User.call, malloc_of_list hw.list hne, align_eq_roundUp hn, hnone]
    rfl
  · have hmem : c ∈ l₁ ++ c :: l₂ := by simp
    obtain ⟨hp, hp0⟩ := hw.handed_out hmem
    have htop := (hw.chunk_spec hmem).2
    have hcall : u.Step L (.malloc n)
        ⟨grant u.h (roundUp n) (Slot.after l₁) c, (c + sizeofChunk, n) :: u.live⟩
        (c + sizeofChunk) := by
      refine ⟨fuel, ?_⟩
      rw [User.call, malloc_of_list hw.list hne, align_eq_roundUp hn, hsome, hp]
      simp only [Option.map_some, if_neg hp0]
    refine .inr ⟨c, hmem, hc, ?_⟩
    by_cases hwhole : u.h.size c ≤ roundUp n + sizeofChunk
    · -- the chunk leaves the list
      have hmod : u.h.size c ≤ (roundUp n + sizeofChunk) % wordSize := by
        unfold sizeofChunk wordSize at *
        omega
      obtain ⟨hlist, hsame⟩ := grant_whole hw.list hw.ascending hmod
      have htake : WellFormed L ⟨grant u.h (roundUp n) (Slot.after l₁) c,
          (c + sizeofChunk, n) :: u.live⟩ (l₁ ++ ([] ++ l₂)) :=
        hw.take (hle.trans hc) hlist List.Pairwise.nil (by simp) fun d _ => hsame d
      refine ⟨_, _, hcall, htake, ?_⟩
      rw [and_iff_left hwhole]
      cases l₁ <;> cases l₂ <;> simp
    · obtain ⟨hlist, hsize, hsame⟩ :=
        grant_part hw.list hw.ascending (Nat.lt_of_not_le hwhole) hmul htop
      have htake : WellFormed L ⟨grant u.h (roundUp n) (Slot.after l₁) c,
          (c + sizeofChunk, n) :: u.live⟩ (l₁ ++ ([c + sizeofChunk + roundUp n] ++ l₂)) := by
        refine hw.take (hle.trans hc) hlist (List.pairwise_singleton ..) (fun r hr => ?_)
          fun d hd => hsame d (by simpa using hd)
        rw [List.mem_singleton.mp hr]
        simp only [Heap.range, hsize]
        unfold sizeofChunk at *
        omega
      refine ⟨_, _, hcall, htake, iff_of_false (by simp) fun h => hwhole h.2⟩

/-- The first call makes the list before it does anything else. -/
theorem call_malloc_of_nil (hl : FreeList u.h []) (fuel : Nat) :
    u.call L (.malloc n) fuel = User.call L ⟨firstChunk L u.h, u.live⟩ (.malloc n) fuel := by
  rw [User.call, User.call, malloc_of_nil hl,
    malloc_of_list (firstChunk_list L u.h).1 (List.cons_ne_nil _ _)]

/-- A request that comes to 0 bytes is granted in any state. -/
theorem malloc_zero (hw : WellFormed L u l) (hn : align n sizeofChunk = 0) {u' : User} {p : Nat}
    (hcall : u.Step L (.malloc n) u' p) : p ≠ NULL := by
  obtain ⟨fuel, hcall⟩ := hcall
  rw [User.call, Option.map_eq_some_iff] at hcall
  obtain ⟨⟨p', h'⟩, hmalloc, hr⟩ := hcall
  obtain ⟨-, rfl⟩ := Prod.mk.inj hr
  by_cases hne : l = []
  · subst hne
    rw [malloc_of_nil hw.list, hn] at hmalloc
    refine mallocFrom_zero (firstChunk_list L u.h).1 (by simp) (fun c hc => ?_) hmalloc
    have htop := L.start_spec.2
    rw [List.mem_singleton.mp hc]
    unfold Layout.heapTop at htop
    omega
  · rw [malloc_of_list hw.list hne, hn] at hmalloc
    refine mallocFrom_zero hw.list hne (fun c hc => ?_) hmalloc
    have := (hw.chunk_spec hc).2
    omega

/-- A block that is freed is put somewhere, if there is a list. -/
theorem free_returns (hw : WellFormed L u l) (hne : l ≠ []) {b : Nat × Nat} (hb : b ∈ u.live) :
    ∃ h', u.Step L (.free b.1) ⟨h', u.live.filter fun b' => b'.1 ≠ b.1⟩ NULL := by
  obtain ⟨hlo, hhi⟩ := hw.inside b hb
  have htop := L.start_spec.2
  have hb1 : b.1 - sizeofChunk + sizeofChunk = b.1 := by omega
  -- where its header is, no free chunk begins
  have hapart : ∀ c ∈ l, b.1 - sizeofChunk ≠ c := by
    rintro c hc rfl
    have hclear := hw.apart b hb _ hc
    simp only [Clear, block, Heap.range] at hclear
    unfold sizeofChunk at *
    omega
  obtain ⟨fuel, h', hfree⟩ : ∃ fuel h', free b.1 u.h fuel = some h' := by
    obtain ⟨l₁, l₂, rfl, hlow, hhigh⟩ := Ascending.place hw.ascending (b.1 - sizeofChunk)
    rw [← hb1]
    rcases List.eq_nil_or_concat' l₁ with rfl | ⟨l₀, prior, rfl⟩
    · cases l₂ with
      | nil => exact absurd rfl hne
      | cons d l₂ =>
        have hd := lt_of_le_of_ne (hhigh d (by simp)) (hapart d (by simp))
        exact ⟨0, _, free_first hw.list (by omega) hd 0⟩
    · have hlist : FreeList u.h (l₀ ++ prior :: l₂) := by simpa using hw.list
      obtain ⟨fuel, hfree⟩ := free_after hlist (by omega) hlow hhigh
      exact ⟨fuel, _, hfree⟩
  refine ⟨h', fuel, ?_⟩
  rw [User.call, hfree]
  rfl

end Malloc

-- ---------------------------------------------------------------------------
-- The first call of malloc
-- ---------------------------------------------------------------------------

section Started

variable {L : Layout} {u : User} {l : List Nat} {n : Nat}

/-- The state `u₁` with the list `l₁` that `malloc` works on from `u`. -/
structure Started (L : Layout) (u : User) (l : List Nat) (u₁ : User) (l₁ : List Nat) : Prop where
  wellFormed : WellFormed L u₁ l₁
  nonempty   : l₁ ≠ []
  live       : u₁.live = u.live
  call       : ∀ n fuel, u.call L (.malloc n) fuel = u₁.call L (.malloc n) fuel
  possible   : ∀ n, Possible L u l n ↔ roundUp n < wordSize ∧ ∃ c ∈ l₁, roundUp n ≤ u₁.h.size c

/-- `malloc` starts from a list, which is the whole heap the first time. -/
theorem started (hw : WellFormed L u l) (hor : l ≠ [] ∨ u.live = []) :
    ∃ u₁ l₁, Started L u l u₁ l₁ := by
  by_cases hne : l = []
  · have hlive : u.live = [] := hor.resolve_left (not_not_intro hne)
    subst hne
    refine ⟨⟨firstChunk L u.h, u.live⟩, [L.heapStart], ?_, by simp, rfl, ?_, ?_⟩
    · rw [hlive]
      exact wellFormed_first L u.h
    · intro n fuel
      exact call_malloc_of_nil hw.list fuel
    · intro n
      simp [Possible, hlive, (firstChunk_list L u.h).2.1]
  · refine ⟨u, l, hw, hne, rfl, fun _ _ => rfl, fun n => ?_⟩
    simp [Possible, hne]

/-- **What `malloc` answers**, in any well-formed state but one that has blocks and no
list. -/
theorem malloc_answers (hw : WellFormed L u l) (hor : l ≠ [] ∨ u.live = []) (hn : n + 15 < wordSize) :
    (¬ Possible L u l n ∧ ∃ u' l', u.Step L (.malloc n) u' NULL ∧ u'.live = u.live ∧
      HeapSafe L u' l') ∨
    (Possible L u l n ∧ ∃ p h' l', u.Step L (.malloc n) ⟨h', (p, n) :: u.live⟩ p ∧ p ≠ NULL ∧
      WellFormed L ⟨h', (p, n) :: u.live⟩ l') := by
  obtain ⟨u₁, l₁, hs⟩ := started hw hor
  have hstep : ∀ {u' p}, u₁.Step L (.malloc n) u' p → u.Step L (.malloc n) u' p :=
    fun ⟨fuel, hcall⟩ => ⟨fuel, (hs.call n fuel).trans hcall⟩
  rw [hs.possible, and_iff_right ((roundUp_lt_iff n).mpr hn)]
  rcases malloc_spec hs.wellFormed hs.nonempty hn with ⟨hsmall, hcall⟩ | ⟨c, hc, hle, h', l', hcall, hw', -⟩
  · refine .inl ⟨?_, u₁, l₁, hstep hcall, hs.live, hs.wellFormed.toHeapSafe⟩
    rintro ⟨c, hc, hle⟩
    exact absurd (hsmall c hc) (by omega)
  · rw [hs.live] at hcall hw'
    exact .inr ⟨⟨c, hc, hle⟩, _, h', l', hstep hcall, Nat.succ_ne_zero _, hw'⟩

/-- A call that is possible has such a list. -/
theorem Possible.started (hp : Possible L u l n) : (l ≠ [] ∨ u.live = []) ∧ n + 15 < wordSize := by
  refine ⟨?_, (roundUp_lt_iff n).mp hp.1⟩
  rcases hp.2 with ⟨c, hc, -⟩ | ⟨-, hlive, -⟩
  · exact .inl (List.ne_nil_of_mem hc)
  · exact .inr hlive

end Started

-- ---------------------------------------------------------------------------
-- calloc
-- ---------------------------------------------------------------------------

section Calloc

variable {L : Layout} {s : Prog} {l : List Nat} {count size : Nat}

/-- `calloc` is `malloc` and a fill with zeros. -/
theorem calloc_eq {s' : Prog} {p fuel : Nat} :
    calloc L count size s fuel = some (p, s') ↔
      s.u.call L (.malloc (count * size % wordSize)) fuel = some (s'.u, p) ∧
        memset p 0 (count * size % wordSize) s.mem = some s'.mem := by
  simp only [calloc, Option.bind_eq_bind, Option.bind_eq_some_iff]
  constructor
  · rintro ⟨⟨u, q⟩, hcall, mem, hmem, heq⟩
    obtain ⟨rfl, rfl⟩ := Prod.mk.inj (Option.some.inj heq)
    exact ⟨hcall, hmem⟩
  · rintro ⟨hcall, hmem⟩
    exact ⟨_, hcall, _, hmem, rfl⟩

/-- So it is clean when the allocation is possible. -/
theorem calloc_of_possible (hw : WellFormed L s.u l) (hp : Possible L s.u l (count * size)) :
    CallocClean L s l count size := by
  obtain ⟨hor, hn⟩ := hp.started
  have hmod : count * size % wordSize = count * size := Nat.mod_eq_of_lt (by omega)
  rcases malloc_answers hw hor hn with ⟨hnot, -⟩ | ⟨-, p, h', l', ⟨fuel, hcall⟩, hp0, hw'⟩
  · exact absurd hp hnot
  · obtain ⟨mem, hmem, hzero⟩ : ∃ mem, memset p 0 (count * size) s.mem = some mem ∧
        ∀ i < count * size, mem (p + i) = 0 := by
      by_cases hz : count * size = 0
      · exact ⟨s.mem, by rw [memset, if_pos hz], by omega⟩
      · refine ⟨_, by rw [memset, if_neg hz, if_neg hp0], ?_⟩
        intro i hi
        have hi' : i < (List.replicate (count * size) (0 : UInt8)).length := by simpa using hi
        rw [Memory.blit_inside hi', List.getElem_replicate]
    refine ⟨fuel, p, ⟨⟨h', (p, count * size) :: s.u.live⟩, mem⟩, calloc_eq.mpr ?_, fun _ => ?_,
      fun hnot => absurd hp hnot⟩
    · rw [hmod]
      exact ⟨hcall, hmem⟩
    · exact ⟨⟨hp0, List.mem_cons_self .., hw'.blocks, hw'.inside⟩, hzero⟩

/-- A refusal goes on to clear the block at `NULL`. -/
theorem possible_of_calloc (hw : WellFormed L s.u l) (hc : CallocClean L s l count size) :
    Possible L s.u l (count * size) := by
  by_contra hnot
  obtain ⟨fuel, p, s', hcall, -, hrefused⟩ := hc
  have hnull := (hrefused hnot).null
  obtain ⟨hmalloc, hmem⟩ := calloc_eq.mp hcall
  by_cases hz : count * size % wordSize = 0
  · rw [hz] at hmalloc
    exact malloc_zero hw rfl ⟨fuel, hmalloc⟩ hnull
  · rw [memset, if_neg hz, if_pos hnull] at hmem
    cases hmem

end Calloc

-- ---------------------------------------------------------------------------
-- realloc
-- ---------------------------------------------------------------------------

section Realloc

variable {L : Layout} {s : Prog} {l : List Nat} {old n size : Nat}

/-- `realloc` of null is `malloc`. -/
theorem realloc_null_eq {s' : Prog} {p fuel : Nat} :
    realloc L NULL size s fuel = some (p, s') ↔
      s.u.call L (.malloc size) fuel = some (s'.u, p) ∧ s'.mem = s.mem := by
  simp only [realloc, ne_eq, not_true_eq_false, if_false, Option.bind_eq_bind,
    Option.bind_eq_some_iff]
  constructor
  · rintro ⟨⟨u, q⟩, hcall, heq⟩
    obtain ⟨rfl, rfl⟩ := Prod.mk.inj (Option.some.inj heq)
    exact ⟨hcall, rfl⟩
  · rintro ⟨hcall, hmem⟩
    exact ⟨_, hcall, by rw [← hmem]⟩

/-- `copy_size`. -/
def copySize (h : Heap) (old size : Nat) : Nat :=
  if h.size (wsub old sizeofChunk) < size then h.size (wsub old sizeofChunk) else size

/-- Of a block, `realloc` is `malloc`, a copy and `free`. -/
theorem realloc_eq {s' : Prog} {p fuel : Nat} (hold : old ≠ NULL) :
    realloc L old size s fuel = some (p, s') ↔
      ∃ u, s.u.call L (.malloc size) fuel = some (u, p) ∧
        memcpy p old (copySize s.u.h old size) s.mem = some s'.mem ∧
        ∃ q, u.call L (.free old) fuel = some (s'.u, q) := by
  simp only [realloc, if_pos hold, Option.bind_eq_bind, Option.bind_eq_some_iff]
  constructor
  · rintro ⟨⟨u, q⟩, hcall, mem, hmem, ⟨u', r⟩, hfree, heq⟩
    obtain ⟨rfl, rfl⟩ := Prod.mk.inj (Option.some.inj heq)
    exact ⟨u, hcall, hmem, r, hfree⟩
  · rintro ⟨u, hcall, hmem, q, hfree⟩
    exact ⟨_, hcall, _, hmem, _, hfree, rfl⟩

/-- `realloc` of null is clean when `malloc` is. -/
theorem realloc_null_clean (hw : WellFormed L s.u l) (hor : l ≠ [] ∨ s.u.live = [])
    (hsize : size + 15 < wordSize) : ReallocClean L s l NULL 0 size := by
  rcases malloc_answers hw hor hsize with
    ⟨hnot, u', l', ⟨fuel, hcall⟩, hlive, hsafe⟩ | ⟨hp, p, h', l', ⟨fuel, hcall⟩, hp0, hw'⟩
  · exact ⟨fuel, NULL, ⟨u', s.mem⟩, realloc_null_eq.mpr ⟨hcall, rfl⟩, fun hp => absurd hp hnot,
      fun _ => ⟨rfl, rfl, hlive, l', hsafe⟩⟩
  · refine ⟨fuel, p, ⟨⟨h', (p, size) :: s.u.live⟩, s.mem⟩, realloc_null_eq.mpr ⟨hcall, rfl⟩,
      fun _ => ⟨⟨hp0, List.mem_cons_self .., hw'.blocks, hw'.inside⟩, ?_⟩, fun hnot => absurd hp hnot⟩
    intro i hi
    omega

/-- With blocks and no list, the heap is made free under the blocks. -/
theorem not_safe_of_nil (hw : WellFormed L s.u []) {b : Nat × Nat} (hb : b ∈ s.u.live) {u' : User}
    (hcall : s.u.Step L (.malloc size) u' NULL) : ¬ ∃ l', HeapSafe L u' l' := by
  obtain ⟨fuel, hcall⟩ := hcall
  rw [User.call, Option.map_eq_some_iff] at hcall
  obtain ⟨⟨p, h'⟩, hmalloc, hr⟩ := hcall
  obtain ⟨rfl, rfl⟩ := Prod.mk.inj hr
  rw [malloc_of_nil hw.list] at hmalloc
  obtain ⟨hfirst, hfull, -⟩ := firstChunk_list L s.u.h
  rintro ⟨l', hsafe⟩
  rcases mallocFrom_cases hfirst (align size sizeofChunk) with
    ⟨-, fuel', hnone⟩ | ⟨l₁, c, l₂, hsplit, -, fuel', hsome⟩
  · obtain ⟨-, rfl⟩ := Prod.mk.inj (mallocFrom_unique hnone hmalloc)
    rw [if_pos rfl] at hsafe
    have hclear := hsafe.apart b hb L.heapStart (hfirst.unique hsafe.list ▸ List.mem_cons_self ..)
    obtain ⟨hlo, hhi⟩ := hw.inside b hb
    simp only [Clear, block, Heap.range, hfull] at hclear
    unfold Layout.heapTop sizeofChunk at *
    omega
  · have hc : c ∈ [L.heapStart] := hsplit ▸ by simp
    have htop := L.start_spec.2
    obtain ⟨hnull, -⟩ := Prod.mk.inj (mallocFrom_unique hsome hmalloc)
    rw [List.mem_singleton.mp hc] at hnull
    unfold Layout.heapTop NULL sizeofChunk wordSize at *
    omega

theorem of_realloc_null_clean (hw : WellFormed L s.u l) (hsize : size < wordSize)
    (hc : ReallocClean L s l NULL 0 size) :
    size + 15 < wordSize ∧ (l ≠ [] ∨ s.u.live = []) := by
  obtain ⟨fuel, p, s', hcall, -, hrefused⟩ := hc
  obtain ⟨hmalloc, -⟩ := realloc_null_eq.mp hcall
  constructor
  · by_contra hwrap
    have hnot : ¬ Possible L s.u l size := fun hp => hwrap hp.started.2
    exact malloc_zero hw (align_wraps hsize (by omega)) ⟨fuel, hmalloc⟩ (hrefused hnot).null
  · by_contra hnone
    obtain ⟨hnil, hlive⟩ := not_or.mp hnone
    obtain rfl := not_not.mp hnil
    obtain ⟨b, hb⟩ := List.exists_mem_of_ne_nil _ hlive
    have hr := hrefused fun hp => hnone hp.started.1
    exact not_safe_of_nil hw hb ⟨fuel, hr.null ▸ hmalloc⟩ hr.safe

/-- The size of a block is read from its header. -/
theorem WellFormed.header (hw : WellFormed L s.u l) (size : Nat) (hold : (old, n) ∈ s.u.live) :
    old ≠ NULL ∧ min n size ≤ copySize s.u.h old size ∧ copySize s.u.h old size ≤ size := by
  obtain ⟨hlo, hhi⟩ := hw.inside _ hold
  have hpos := L.start_spec.1
  have htop := L.start_spec.2
  have hsub : wsub old sizeofChunk = old - sizeofChunk := wsub_eq (by omega) (by omega)
  have hheader := hw.headers _ hold
  simp only at hlo hheader
  unfold copySize NULL
  rw [hsub]
  refine ⟨by omega, ?_, ?_⟩
  · split <;> omega
  · split <;> omega

/-- The bytes that are copied are in the old block as far as that goes, and the new block
is clear of it. -/
theorem memcpy_block {p k : Nat} (mem : Memory) (hp : p ≠ NULL) (hold : old ≠ NULL)
    (hk : min n size ≤ k) (hle : k ≤ size) (hclear : Clear (block (p, size)) (block (old, n)))
    (hpos : sizeofChunk ≤ p ∧ sizeofChunk ≤ old) :
    ∃ mem', memcpy p old k mem = some mem' ∧ ∀ i < min n size, mem' (p + i) = mem (old + i) := by
  by_cases hz : k = 0
  · exact ⟨mem, by rw [memcpy, if_pos hz], fun i hi => by omega⟩
  · refine ⟨mem.copy p old k, ?_, fun i hi => Memory.copy_inside (by omega) ?_⟩
    · rw [memcpy, if_neg hz, if_neg (not_or.mpr ⟨hp, hold⟩)]
    · simp only [Clear, block] at hclear
      omega

/-- With room for the new block, and some left, `realloc` is clean. -/
theorem realloc_clean (hw : WellFormed L s.u l) (hold : (old, n) ∈ s.u.live)
    (hsize : size + 15 < wordSize) (hroom : ∃ c ∈ l, roundUp size ≤ s.u.h.size c)
    (hleft : ¬ ∃ c, l = [c] ∧ s.u.h.size c ≤ roundUp size + sizeofChunk) :
    ReallocClean L s l old n size := by
  obtain ⟨c, hc, hle⟩ := hroom
  have hpossible : Possible L s.u l size := ⟨(roundUp_lt_iff size).mpr hsize, .inl ⟨c, hc, hle⟩⟩
  rcases malloc_spec hw (List.ne_nil_of_mem hc) hsize with
    ⟨hsmall, -⟩ | ⟨d, hd, -, h', l', ⟨fuel, hcall⟩, hw', hempty⟩
  · exact absurd (hsmall c hc) (by omega)
  · have hl' : l' ≠ [] := fun hnil => hleft ⟨d, hempty.mp hnil⟩
    obtain ⟨h'', fuel', hfree⟩ := free_returns hw' hl' (List.mem_cons_of_mem _ hold)
    obtain ⟨hold0, hk, hksize⟩ := hw.header size hold
    have hclear := (List.pairwise_cons.mp hw'.blocks).1 _ hold
    have hlo := (hw.inside _ hold).1
    simp only at hlo
    have hnew0 : d + sizeofChunk ≠ NULL := Nat.succ_ne_zero _
    obtain ⟨mem, hmem, hbytes⟩ := memcpy_block s.mem hnew0 hold0 hk hksize
      hclear ⟨Nat.le_add_left .., (Nat.le_add_left ..).trans hlo⟩
    have hne : d + sizeofChunk ≠ old := by
      rintro rfl
      simp only [Clear, block] at hclear
      unfold sizeofChunk at *
      omega
    have hnew : (d + sizeofChunk, size) ∈
        ((d + sizeofChunk, size) :: s.u.live).filter fun b => b.1 ≠ old :=
      List.mem_filter.mpr ⟨List.mem_cons_self .., by simpa using hne⟩
    have hsub : (((d + sizeofChunk, size) :: s.u.live).filter fun b => b.1 ≠ old).Sublist
        ((d + sizeofChunk, size) :: s.u.live) := List.filter_sublist
    have hcall := call_fueled L _ _ _ _ _ (Nat.le_max_left fuel fuel') hcall
    have hfree := call_fueled L _ _ _ _ _ (Nat.le_max_right fuel fuel') hfree
    refine ⟨max fuel fuel', d + sizeofChunk, ⟨_, mem⟩,
      (realloc_eq hold0).mpr ⟨_, hcall, hmem, NULL, hfree⟩, fun _ => ⟨⟨hnew0, hnew,
        hw'.blocks.sublist hsub, fun b hb => ?_⟩, hbytes⟩, fun hnot => absurd hpossible hnot⟩
    exact hw'.inside b (hsub.mem hb)

/-- If anything is in the way, the old block is lost, or the call does not return. -/
theorem of_realloc_clean (hw : WellFormed L s.u l) (hold : (old, n) ∈ s.u.live)
    (hc : ReallocClean L s l old n size) :
    size + 15 < wordSize ∧ (∃ c ∈ l, roundUp size ≤ s.u.h.size c) ∧
      ¬ ∃ c, l = [c] ∧ s.u.h.size c ≤ roundUp size + sizeofChunk := by
  obtain ⟨fuel, p, s', hcall, -, hrefused⟩ := hc
  have hold0 := (hw.header size hold).1
  obtain ⟨u, hmalloc, hmem, q, hfree⟩ := (realloc_eq hold0).mp hcall
  have hlive : s.u.live ≠ [] := List.ne_nil_of_mem hold
  -- the block that was freed is not live any more
  have hgone : s'.u.live ≠ s.u.live := by
    rw [User.call, Option.map_eq_some_iff] at hfree
    obtain ⟨h', -, hr⟩ := hfree
    obtain ⟨hu, -⟩ := Prod.mk.inj hr
    intro hsame
    rw [← hsame, ← hu] at hold
    simp at hold
  have hpossible : Possible L s.u l size := by
    by_contra hnot
    exact hgone (hrefused hnot).live
  have hsize' := hpossible.started.2
  have hroom : ∃ c ∈ l, roundUp size ≤ s.u.h.size c :=
    hpossible.2.resolve_right fun h => hlive h.2.1
  refine ⟨hsize', hroom, ?_⟩
  rintro ⟨c, rfl, hle⟩
  rcases malloc_spec hw (by simp) hsize' with
    ⟨hsmall, -⟩ | ⟨d, hd, -, h', l', ⟨fuel', hcall'⟩, hw', hempty⟩
  · obtain ⟨d, hd, hle'⟩ := hroom
    exact absurd (hsmall d hd) (by omega)
  · -- the only free chunk is taken, and `free` finds no list
    obtain rfl := List.mem_singleton.mp hd
    obtain rfl := hempty.mpr ⟨rfl, hle⟩
    obtain ⟨rfl, -⟩ := Prod.mk.inj ((call_fueled L).unique hmalloc hcall')
    rw [User.call, free_of_nil hw'.list hold0] at hfree
    cases hfree

end Realloc

/-- **calloc and realloc**: `calloc` never fails cleanly, and does what it should when the
request is possible. `realloc` of no block fails cleanly, if the size can be rounded up and
`malloc` does not start over. `realloc` of a block never fails cleanly either, and when the
request is possible it needs a chunk left over, for `free`. -/
theorem callers_clean_iff {L : Layout} {s : Prog} {l : List Nat} (hw : WellFormed L s.u l) :
    (∀ count size, count < wordSize → size < wordSize →
      (CallocClean L s l count size ↔ Possible L s.u l (count * size))) ∧
    (∀ size, size < wordSize → (ReallocClean L s l NULL 0 size ↔
      size + 15 < wordSize ∧ (l ≠ [] ∨ s.u.live = []))) ∧
    ∀ old n size, (old, n) ∈ s.u.live → size < wordSize → (ReallocClean L s l old n size ↔
      size + 15 < wordSize ∧ (∃ c ∈ l, roundUp size ≤ s.u.h.size c) ∧
        ¬ ∃ c, l = [c] ∧ s.u.h.size c ≤ roundUp size + sizeofChunk) := by
  refine ⟨fun count size _ _ => ⟨possible_of_calloc hw, calloc_of_possible hw⟩,
    fun size hsize => ⟨of_realloc_null_clean hw hsize, fun ⟨hn, hor⟩ => realloc_null_clean hw hor hn⟩,
    fun old n size hold _ => ⟨of_realloc_clean hw hold, ?_⟩⟩
  rintro ⟨hn, hroom, hleft⟩
  exact realloc_clean hw hold hn hroom hleft

/-- A program with one block of 16 bytes. -/
def oneBlock : User where
  h :=
    { head := Layout.low.heapStart + 32
      chunk := fun c => if c = Layout.low.heapStart + 32 then ⟨NULL, Layout.low.heapSize - 32⟩
        else ⟨NULL, Layout.low.heapSize⟩ }
  live := [(Layout.low.heapStart + sizeofChunk, 16)]

/-- One block in front of one free chunk. -/
theorem oneBlock_wellFormed : WellFormed Layout.low oneBlock [Layout.low.heapStart + 32] :=
  ⟨⟨⟨⟨rfl, rfl⟩, by decide⟩, List.pairwise_singleton .., List.pairwise_singleton .., by decide,
    by decide⟩, by decide, by decide⟩

/-- Both give it what it asks for. -/
theorem callers_clean_oneBlock :
    CallocClean Layout.low ⟨oneBlock, fun _ => 7⟩ [Layout.low.heapStart + 32] 3 5 ∧
      ReallocClean Layout.low ⟨oneBlock, fun _ => 7⟩ [Layout.low.heapStart + 32]
        (Layout.low.heapStart + sizeofChunk) 16 100 := by
  have hw : WellFormed Layout.low (⟨oneBlock, fun _ => 7⟩ : Prog).u _ := oneBlock_wellFormed
  obtain ⟨hcalloc, -, hrealloc⟩ := callers_clean_iff hw
  constructor
  · exact (hcalloc 3 5 (by decide) (by decide)).mpr ⟨by decide, .inl (by decide)⟩
  · refine (hrealloc _ 16 100 (by decide) (by decide)).mpr ⟨by decide, by decide, ?_⟩
    rintro ⟨c, hc, hle⟩
    obtain rfl := (List.cons.inj hc).1
    exact absurd hle (by decide)

/-- `calloc(2^32, 2^32)` gives a block of no bytes; `calloc` of more than there is clears
bytes at `NULL`; `realloc` to more than there is copies to `NULL`. -/
theorem callers_fail :
    WellFormed Layout.low oneBlock [Layout.low.heapStart + 32] ∧
      ¬ CallocClean Layout.low ⟨oneBlock, fun _ => 7⟩ [Layout.low.heapStart + 32]
        0x100000000 0x100000000 ∧
      ¬ CallocClean Layout.low ⟨oneBlock, fun _ => 7⟩ [Layout.low.heapStart + 32] 1 lowHalfTop ∧
      ¬ ReallocClean Layout.low ⟨oneBlock, fun _ => 7⟩ [Layout.low.heapStart + 32]
        (Layout.low.heapStart + sizeofChunk) 16 lowHalfTop := by
  have hw : WellFormed Layout.low (⟨oneBlock, fun _ => 7⟩ : Prog).u _ := oneBlock_wellFormed
  refine ⟨oneBlock_wellFormed, ?_, ?_, ?_⟩
  · intro hc
    exact absurd (possible_of_calloc hw hc).1 (by decide)
  · intro hc
    have hp := (possible_of_calloc hw hc).2
    exact absurd hp (by decide)
  · intro hc
    have hroom := (of_realloc_clean hw (List.mem_singleton_self _) hc).2.1
    exact absurd hroom (by decide)

end Frosk.UserHeap
