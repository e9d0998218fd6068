import Mathlib.Tactic
import Frosk.Lib.Cover
import Frosk.UserHeap.Steps

/-!
# User heap: what free gives back

A chunk that is freed should come back whole: its bytes and those of its header join the
bytes of the list, and no two chunks of the list touch afterwards.

Main result: `free_covers_iff`, that is so exactly if the chunk touches no free one. Where
it touches one, `sizeof(chunk)` is added for the header that goes, and half of it is lost.
-/

namespace Frosk.UserHeap

open Lib

/-- A list in ascending order in which no two chunks overlap or touch. -/
structure Tidy (h : Heap) (l : List Nat) : Prop where
  list   : FreeList h l
  apart  : l.Pairwise fun c d => c + h.len c < d
  inside : ∀ c ∈ l, c + h.len c < wordSize

section Coverage

variable {h h' : Heap} {l l' l₁ l₂ : List Nat} {c ck d x : Nat}

/-- A tidy list ascends. -/
theorem Tidy.ascending (ht : Tidy h l) : Ascending h l := by
  refine ht.apart.imp fun {c d} hcd => ?_
  rw [Heap.range_snd]
  have := h.len_pos c
  omega

/-- The gap that a chunk is in. -/
theorem Tidy.gap (ht : Tidy h l) (hck : 0 < ck) (htop : ck + h.len ck < wordSize)
    (hgap : ∀ c ∈ l, c + h.len c ≤ ck ∨ ck + h.len ck ≤ c) :
    ∃ l₁ l₂, l = l₁ ++ l₂ ∧ Gap h l₁ l₂ ck := by
  obtain ⟨l₁, l₂, rfl, hlow, hhigh⟩ := ht.ascending.place ck
  refine ⟨l₁, l₂, rfl, ht.list, ht.ascending, ht.inside, hck, htop, ?_, ?_⟩
  · intro c hc
    have hlt := hlow c hc
    rcases hgap c (List.mem_append_left _ hc) with hle | hle <;> omega
  · intro c hc
    have hle := hhigh c hc
    have := h.len_pos c
    rcases hgap c (List.mem_append_right _ hc) with hle | hle <;> omega

/-- The last byte of a merged chunk that is half a header too short. -/
theorem lost_byte (hsep : ∀ c ∈ l, c + h.len c ≤ x ∨ x < c) (hd : d + h'.len d ≤ x)
    (hsame : ∀ c, c ≠ d → h'.size c = h.size c) : x ∉ cover h'.len l := by
  rintro ⟨c, hc, hle, hlt⟩
  by_cases hcd : c = d
  · subst hcd
    omega
  · have hlen : h'.len c = h.len c := by rw [Heap.len, hsame c hcd]; rfl
    rw [hlen] at hlt
    rcases hsep c hc with h | h <;> omega

/-- `free` of the chunk returns, and the list is tidy and has its bytes as well. -/
def Returned (h : Heap) (l : List Nat) (ck : Nat) : Prop :=
  ∃ fuel h' l', free (ck + sizeofChunk) h fuel = some h' ∧ Tidy h' l' ∧
    cover h'.len l' = cover h.len l ∪ Set.Ico ck (ck + h.len ck)

/-- A byte that should be covered and is not. -/
theorem not_returned {fuel : Nat} (hfree : free (ck + sizeofChunk) h fuel = some h')
    (hl : FreeList h' l') (hx : x ∈ cover h.len l ∪ Set.Ico ck (ck + h.len ck))
    (hnot : x ∉ cover h'.len l') : ¬ Returned h l ck := by
  rintro ⟨fuel', h'', l'', hfree', ht, hcover⟩
  obtain rfl := free_unique hfree hfree'
  obtain rfl := hl.unique ht.list
  exact hnot (hcover ▸ hx)

/-- A chunk that touches a free one does not come back whole. -/
theorem not_returned_of_touching (ht : Tidy h (l₁ ++ l₂)) (hg : Gap h l₁ l₂ ck)
    (htouch : ∃ c ∈ l₁ ++ l₂, ck + h.len ck = c ∨ c + h.len c = ck) :
    ¬ Returned h (l₁ ++ l₂) ck := by
  obtain ⟨c, hc, htouch⟩ := htouch
  obtain ⟨fuel, h', hfree, hmerged⟩ := free_cases hg (List.ne_nil_of_mem hc)
  have hlen := h.len_pos ck
  rcases hmerged with ⟨prior, hmem, hend, hl, hsize, hsame⟩ | ⟨d, l, rfl, hend, hl, hsize, hsame⟩ |
    ⟨hfar, -, -⟩
  · -- the chunk became part of the one below, and its own last byte is missing
    have hx : ck + h.len ck - 1 ∈ Set.Ico ck (ck + h.len ck) := by
      rw [Set.mem_Ico]
      omega
    refine not_returned hfree hl (.inr hx) (lost_byte (fun d hd => ?_) ?_ hsame)
    · rcases List.mem_append.mp hd with hd | hd
      · have := hg.below d hd
        omega
      · have := hg.above d hd
        omega
    · unfold Heap.len sizeofPtr sizeofChunk at *
      omega
  · -- the chunk above became part of it, and the last byte of that one is missing
    have hd : d ∈ l₁ ++ d :: l := by simp
    have hdlen := h.len_pos d
    have hx : d + h.len d - 1 ∈ cover h.len (l₁ ++ d :: l) := ⟨d, hd, by omega, by omega⟩
    obtain ⟨habove, -⟩ := List.pairwise_cons.mp (List.pairwise_append.mp ht.apart).2.1
    refine not_returned hfree hl (.inl hx) (lost_byte (fun e he => ?_) ?_ hsame)
    · rcases List.mem_append.mp he with he | he
      · have := hg.below e he
        omega
      · rcases List.mem_cons.mp he with rfl | he
        · omega
        · have := habove e he
          omega
    · unfold Heap.len sizeofPtr sizeofChunk at *
      omega
  · obtain ⟨habove, hbelow⟩ := hfar c hc
    exact absurd htouch (not_or.mpr ⟨habove, hbelow⟩)

/-- A chunk by itself does. -/
theorem returned_of_far (ht : Tidy h (l₁ ++ l₂)) (hg : Gap h l₁ l₂ ck) (hne : l₁ ++ l₂ ≠ [])
    (hfar : ∀ c ∈ l₁ ++ l₂, ck + h.len ck ≠ c ∧ c + h.len c ≠ ck) :
    Returned h (l₁ ++ l₂) ck := by
  obtain ⟨fuel, h', hfree, hmerged⟩ := free_cases hg hne
  rcases hmerged with ⟨prior, hmem, hend, -⟩ | ⟨d, l, rfl, hend, -⟩ | ⟨-, hl, hsame⟩
  · exact absurd hend (hfar prior (List.mem_append_left _ hmem)).2
  · exact absurd hend (hfar d (by simp)).1
  · have hlens : h'.len = h.len := funext fun c => by rw [Heap.len, hsame c, Heap.len]
    obtain ⟨happ₁, happ₂, happ⟩ := List.pairwise_append.mp ht.apart
    have hperm : (l₁ ++ ck :: l₂).Perm (ck :: (l₁ ++ l₂)) := List.perm_middle
    refine ⟨fuel, h', l₁ ++ ck :: l₂, hfree, ⟨hl, ?_, ?_⟩, ?_⟩
    · rw [hlens]
      refine List.pairwise_append.mpr ⟨happ₁, List.pairwise_cons.mpr ⟨fun d hd => ?_, happ₂⟩,
        fun c hc d hd => ?_⟩
      · exact lt_of_le_of_ne (hg.above d hd) (hfar d (List.mem_append_right _ hd)).1
      · have hlow := lt_of_le_of_ne (hg.below c hc) (hfar c (List.mem_append_left _ hc)).2
        rcases List.mem_cons.mp hd with rfl | hd
        · exact hlow
        · exact happ c hc d hd
    · intro c hc
      rw [hlens]
      rcases List.mem_cons.mp (hperm.mem_iff.mp hc) with rfl | hc
      · exact hg.top
      · exact ht.inside c hc
    · rw [hlens, cover_perm hperm, cover_cons, Set.union_comm]

end Coverage

/-- **free returns all bytes and coalesces fully**, exactly if there is nothing to
coalesce. -/
theorem free_covers_iff {h : Heap} {l : List Nat} {ck : Nat} (ht : Tidy h l) (hne : l ≠ [])
    (hck : 0 < ck) (htop : ck + h.len ck < wordSize)
    (hgap : ∀ c ∈ l, c + h.len c ≤ ck ∨ ck + h.len ck ≤ c) :
    Returned h l ck ↔ ∀ c ∈ l, ck + h.len ck ≠ c ∧ c + h.len c ≠ ck := by
  obtain ⟨l₁, l₂, rfl, hg⟩ := ht.gap hck htop hgap
  refine ⟨?_, returned_of_far ht hg hne⟩
  intro hr
  by_contra hfar
  refine not_returned_of_touching ht hg ?_ hr
  push Not at hfar
  obtain ⟨c, hc, htouch⟩ := hfar
  exact ⟨c, hc, or_iff_not_imp_left.mpr htouch⟩

/-- Two chunks of 32 bytes with 96 bytes between them. -/
def spaced : Heap where
  head := 0x1000
  chunk c := if c = 0x1000 then ⟨0x1080, 16⟩ else ⟨NULL, 16⟩

/-- Two chunks with room between them. -/
theorem spaced_tidy : Tidy spaced [0x1000, 0x1080] :=
  ⟨⟨⟨rfl, rfl, rfl⟩, by decide⟩, by decide, by decide⟩

/-- A chunk that touches neither comes back whole. -/
theorem free_covers_middle : Returned spaced [0x1000, 0x1080] 0x1040 :=
  (free_covers_iff spaced_tidy (by simp) (by decide) (by decide) (by decide)).mpr (by decide)

/-- One that touches the chunk below does not. -/
theorem touching_loses : Tidy spaced [0x1000, 0x1080] ∧ ¬ Returned spaced [0x1000, 0x1080] 0x1020 := by
  refine ⟨spaced_tidy, ?_⟩
  have hgap : ∀ c ∈ [0x1000, 0x1080], c + spaced.len c ≤ 0x1020 ∨ 0x1020 + spaced.len 0x1020 ≤ c := by
    decide
  obtain ⟨l₁, l₂, hl, hg⟩ := spaced_tidy.gap (by decide) (by decide) hgap
  rw [hl]
  refine not_returned_of_touching (hl ▸ spaced_tidy) hg ⟨0x1000, ?_, .inr rfl⟩
  rw [← hl]
  exact List.mem_cons_self ..

end Frosk.UserHeap
