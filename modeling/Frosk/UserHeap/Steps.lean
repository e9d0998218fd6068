import Mathlib.Tactic
import Frosk.UserHeap.Definitions

/-!
# User heap: what a call does to the list

What `malloc` and `free` leave of any free list. `malloc` takes the first chunk
that is large enough, whole or its lower part (`grant_whole`, `grant_part`); `free` puts the
chunk between the ones below and the ones above, or makes one of two that touch
(`free_cases`).
-/

namespace Frosk.UserHeap

open Lib

/-- A free chunk, with its header. -/
def Heap.range (h : Heap) (c : Nat) : Nat × Nat := (c, c + sizeofChunk + h.size c)

/-- The bytes of a chunk, header included. -/
def Heap.len (h : Heap) (c : Nat) : Nat := sizeofChunk + h.size c

theorem Heap.range_snd (h : Heap) (c : Nat) : (h.range c).2 = c + h.len c := Nat.add_assoc ..

/-- The chunks `l` are the free list. -/
structure FreeList (h : Heap) (l : List Nat) : Prop where
  path    : Path h.next h.head l NULL
  nonnull : NULL ∉ l

/-- A free list in two parts. -/
theorem FreeList.split {h : Heap} {l₁ l₂ : List Nat} {c : Nat} (hl : FreeList h (l₁ ++ c :: l₂)) :
    Path h.next h.head l₁ c ∧ Path h.next (h.next c) l₂ NULL := by
  obtain ⟨b, hfirst, hb, hrest⟩ := path_append.mp hl.path
  exact ⟨hb ▸ hfirst, hrest⟩

/-- There is one list only. -/
theorem FreeList.unique {h : Heap} {l l' : List Nat} (hl : FreeList h l) (hl' : FreeList h l') :
    l = l' := by
  have hpath : ∀ {l l' : List Nat} {a : Nat}, Path h.next a l NULL → Path h.next a l' NULL →
      NULL ∉ l → NULL ∉ l' → l = l' := by
    intro l
    induction l with
    | nil =>
      rintro l' a ha hl' - hn
      cases l' with
      | nil => rfl
      | cons b l' => exact absurd (List.mem_cons.mpr (.inl (ha.symm.trans hl'.1))) hn
    | cons b l ih =>
      rintro l' a ⟨rfl, hl⟩ hl' hn hn'
      cases l' with
      | nil => exact absurd (List.mem_cons.mpr (.inl (Eq.symm hl'))) hn
      | cons c l' =>
        obtain ⟨rfl, hl'⟩ := hl'
        rw [ih hl hl' (mt (List.mem_cons_of_mem _) hn) (mt (List.mem_cons_of_mem _) hn')]
  exact hpath hl.path hl'.path hl.nonnull hl'.nonnull

-- ---------------------------------------------------------------------------
-- Fields after the edits
-- ---------------------------------------------------------------------------

namespace Heap

theorem setNext_head (h : Heap) (c v : Nat) : (h.setNext c v).head = h.head := rfl

/-- Storing the link of a chunk. -/
theorem setNext_next (h : Heap) (c v d : Nat) :
    (h.setNext c v).next d = if d = c then v else h.next d := by
  by_cases hd : d = c <;> simp [setNext, next, hd]

theorem setNext_size (h : Heap) (c v d : Nat) : (h.setNext c v).size d = h.size d := by
  by_cases hd : d = c <;> simp [setNext, size, hd]

theorem setSize_head (h : Heap) (c v : Nat) : (h.setSize c v).head = h.head := rfl

theorem setSize_next (h : Heap) (c v d : Nat) : (h.setSize c v).next d = h.next d := by
  by_cases hd : d = c <;> simp [setSize, next, hd]

theorem setSize_size (h : Heap) (c v d : Nat) :
    (h.setSize c v).size d = if d = c then v else h.size d := by
  by_cases hd : d = c <;> simp [setSize, size, hd]

theorem withHead_size (h : Heap) (v d : Nat) : ({ h with head := v } : Heap).size d = h.size d :=
  rfl

theorem setSize_setNext (h : Heap) (c v s : Nat) :
    (h.setNext c v).setSize c s = (h.setSize c s).setNext c v := by
  simp [setNext, setSize]

/-- A store of a link changes no size. -/
theorem store_size (h : Heap) (v : Nat) (s : Slot) (d : Nat) : (h.store v s).size d = h.size d := by
  cases s with
  | head => rfl
  | next c => exact setNext_size ..

/-- The end of a chunk that does not wrap. -/
theorem chunkTop_eq {h : Heap} {c : Nat} (hc : c + h.len c < wordSize) :
    h.chunkTop c = c + h.len c := by
  rw [chunkTop, Nat.add_assoc]
  exact Nat.mod_eq_of_lt hc

end Heap

-- ---------------------------------------------------------------------------
-- The slot behind some chunks of the list
-- ---------------------------------------------------------------------------

/-- What points to the rest of the list behind the chunks `l`. -/
def Slot.after (l : List Nat) : Slot := (l.map Slot.next).getLastD .head

/-- The link of the last chunk of a list. -/
theorem slot_after_concat (l : List Nat) (p : Nat) : Slot.after (l ++ [p]) = .next p := by
  simp [Slot.after]

section Slots

variable {h : Heap} {l l₁ l₂ : List Nat} {v c d : Nat}

/-- It holds what the list ends in. -/
theorem load_after (hpath : Path h.next h.head l v) : h.load (Slot.after l) = v := by
  rcases List.eq_nil_or_concat' l with rfl | ⟨l₀, p, rfl⟩
  · exact hpath
  · obtain ⟨_, _, rfl, hlast⟩ := path_append.mp hpath
    rw [slot_after_concat]
    exact hlast

/-- It is the link of none of the others. -/
theorem store_next (hd : d ∉ l) : (h.store v (Slot.after l)).next d = h.next d := by
  rcases List.eq_nil_or_concat' l with rfl | ⟨l₀, p, rfl⟩
  · rfl
  · have hne : d ≠ p := by
      rintro rfl
      exact hd (by simp)
    rw [slot_after_concat, Heap.store, Heap.setNext_next, if_neg hne]

/-- The chunks in front of the slot then lead to what is stored. -/
theorem path_store {b : Nat} (hpath : Path h.next h.head l b) (hnd : l.Nodup) :
    Path (h.store v (Slot.after l)).next (h.store v (Slot.after l)).head l v := by
  rcases List.eq_nil_or_concat' l with rfl | ⟨l₀, p, rfl⟩
  · rfl
  · obtain ⟨_, hfirst, rfl, _⟩ := path_append.mp hpath
    have hlast := (List.nodup_append.mp hnd).2.2
    rw [slot_after_concat]
    refine path_append.mpr ⟨_, path_congr hfirst fun x hx => ?_, rfl, ?_⟩
    · rw [Heap.store, Heap.setNext_next, if_neg (hlast x hx _ (List.mem_singleton_self _))]
    · exact (Heap.setNext_next ..).trans (if_pos rfl)

end Slots

-- ---------------------------------------------------------------------------
-- malloc
-- ---------------------------------------------------------------------------

/-- The search over a list: it ends at the first chunk that is large enough, or behind
the last chunk. -/
theorem search_path {h : Heap} (size : Nat) :
    ∀ {l : List Nat} {a : Nat} (pnext : Slot), Path h.next a l NULL → NULL ∉ l →
      ((∀ c ∈ l, h.size c < size) ∧ Exits (mallocBody h size) (pnext, a) none) ∨
      ∃ l₁ c l₂, l = l₁ ++ c :: l₂ ∧ (∀ d ∈ l₁, h.size d < size) ∧ size ≤ h.size c ∧
        Exits (mallocBody h size) (pnext, a) (some ((l₁.map Slot.next).getLastD pnext, c))
  | [], a, pnext, hpath, _ => by
    refine .inl ⟨by simp, exits_of_inr ?_⟩
    rw [mallocBody, if_pos (show a = NULL from hpath)]
  | c :: l, a, pnext, hpath, hnull => by
    obtain ⟨rfl, hrest⟩ := hpath
    obtain ⟨hc, hnull⟩ := not_or.mp (mt List.mem_cons.mpr hnull)
    by_cases hfit : size ≤ h.size a
    · refine .inr ⟨[], a, l, rfl, by simp, hfit, exits_of_inr ?_⟩
      rw [mallocBody, if_neg (Ne.symm hc), if_pos hfit]
      rfl
    · have hround : mallocBody h size (pnext, a) = .inl (.next a, h.next a) := by
        rw [mallocBody, if_neg (Ne.symm hc), if_neg hfit]
      rcases search_path size (.next a) hrest hnull with
        ⟨hsmall, hex⟩ | ⟨l₁, d, l₂, rfl, hsmall, hd, hex⟩
      · exact .inl ⟨by simpa using ⟨by omega, hsmall⟩, exits_of_inl hround hex⟩
      · refine .inr ⟨a :: l₁, d, l₂, rfl, by simpa using ⟨by omega, hsmall⟩, hd, ?_⟩
        have hlast : ((a :: l₁).map Slot.next).getLastD pnext =
            (l₁.map Slot.next).getLastD (.next a) := by
          rw [List.map_cons, List.getLastD_cons]
        rw [hlast]
        exact exits_of_inl hround hex

/-- The list in ascending order, without overlaps. -/
def Ascending (h : Heap) (l : List Nat) : Prop :=
  l.Pairwise fun c d => c < d ∧ (h.range c).2 ≤ d

/-- No chunk is on the list twice. -/
theorem Ascending.nodup {h : Heap} {l : List Nat} (ha : Ascending h l) : l.Nodup :=
  ha.imp fun hcd => by omega

section Grant

variable {h : Heap} {l₁ l₂ : List Nat} {size c : Nat}

/-- The chunk is taken whole. -/
theorem grant_whole (hl : FreeList h (l₁ ++ c :: l₂)) (ha : Ascending h (l₁ ++ c :: l₂))
    (hle : h.size c ≤ (size + sizeofChunk) % wordSize) :
    FreeList (grant h size (Slot.after l₁) c) (l₁ ++ l₂) ∧
      ∀ d, (grant h size (Slot.after l₁) c).size d = h.size d := by
  obtain ⟨hfirst, hrest⟩ := hl.split
  obtain ⟨hnd₁, hnd₂, hne⟩ := List.nodup_append.mp ha.nodup
  rw [grant, if_pos hle]
  refine ⟨⟨path_append.mpr ⟨_, path_store hfirst hnd₁, ?_⟩, ?_⟩, fun d => Heap.store_size ..⟩
  · refine path_congr hrest fun d hd => store_next fun hmem => ?_
    exact hne d hmem d (List.mem_cons_of_mem _ hd) rfl
  · have hnull := hl.nonnull
    simp only [List.mem_append, List.mem_cons, not_or] at hnull ⊢
    exact ⟨hnull.1, hnull.2.2⟩

/-- Only the lower part is taken, and the rest is a chunk in its place. -/
theorem grant_part (hl : FreeList h (l₁ ++ c :: l₂)) (ha : Ascending h (l₁ ++ c :: l₂))
    (hlt : size + sizeofChunk < h.size c) (hmul : size % sizeofChunk = 0)
    (htop : (h.range c).2 < wordSize) :
    FreeList (grant h size (Slot.after l₁) c) (l₁ ++ (c + sizeofChunk + size) :: l₂) ∧
      (grant h size (Slot.after l₁) c).size (c + sizeofChunk + size) =
        h.size c - size - sizeofChunk ∧
      ∀ d, d ≠ c + sizeofChunk + size → (grant h size (Slot.after l₁) c).size d = h.size d := by
  obtain ⟨hfirst, hrest⟩ := hl.split
  obtain ⟨hasc₁, hasc₂, hasc⟩ := List.pairwise_append.mp ha
  obtain ⟨hasc₂, -⟩ := List.pairwise_cons.mp hasc₂
  simp only [Heap.range] at htop hasc hasc₂
  have hbig : ¬ h.size c ≤ (size + sizeofChunk) % wordSize := by
    unfold sizeofChunk wordSize at *
    omega
  have hrem : (c + sizeofChunk * (1 + size / sizeofChunk)) % wordSize = c + sizeofChunk + size := by
    unfold sizeofChunk wordSize at *
    omega
  have hsub : wsub (wsub (h.size c) size) sizeofChunk = h.size c - size - sizeofChunk := by
    rw [wsub_eq (b := size) (by omega) (by omega), wsub_eq (by omega) (by omega)]
  set r := c + sizeofChunk + size with hr
  -- the header of the rest is inside the chunk, so no chunk of the list has it
  have hr₁ : r ∉ l₁ := fun hmem => by
    have := hasc r hmem c (List.mem_cons_self ..)
    omega
  have hr₂ : r ∉ l₂ := fun hmem => by
    have := hasc₂ r hmem
    omega
  have hc₁ : c ∉ l₁ := fun hmem => by
    have := hasc c hmem c (List.mem_cons_self ..)
    omega
  have hpath := path_store (v := r) hfirst (Ascending.nodup hasc₁)
  have hload := load_after hpath
  set h₁ := h.store r (Slot.after l₁) with hh₁
  have hpath₂ : Path (h₁.setNext r (h.next c)).next (h₁.setNext r (h.next c)).head l₁ r := by
    refine path_congr hpath ?_
    intro d hd
    rw [Heap.setNext_next, if_neg (by rintro rfl; exact hr₁ hd)]
  have hgrant : grant h size (Slot.after l₁) c =
      (h₁.setNext r (h.next c)).setSize r (h.size c - size - sizeofChunk) := by
    rw [grant, if_neg hbig]
    simp only [hrem, ← hh₁, hload]
    rw [store_next hc₁, load_after hpath₂, Heap.setNext_size, Heap.store_size, hsub]
  rw [hgrant]
  refine ⟨⟨path_append.mpr ⟨r, ?_, rfl, ?_⟩, ?_⟩, ?_, ?_⟩
  · exact path_congr hpath₂ fun d _ => Heap.setSize_next ..
  · rw [Heap.setSize_next, Heap.setNext_next, if_pos rfl]
    refine path_congr hrest ?_
    intro d hd
    rw [Heap.setSize_next, Heap.setNext_next, if_neg (by rintro rfl; exact hr₂ hd)]
    refine store_next ?_
    intro hmem
    have := (hasc d hmem d (List.mem_cons_of_mem _ hd)).1
    omega
  · have hnull := hl.nonnull
    simp only [List.mem_append, List.mem_cons, not_or] at hnull ⊢
    have hpos : 0 < r := by
      rw [hr]
      unfold sizeofChunk
      omega
    exact ⟨hnull.1, hpos.ne, hnull.2.2⟩
  · rw [Heap.setSize_size, if_pos rfl]
  · intro d hd
    rw [Heap.setSize_size, if_neg hd, Heap.setNext_size, Heap.store_size]

end Grant

/-- The list is empty when the head is null. -/
theorem FreeList.head_eq_null_iff {h : Heap} {l : List Nat} (hl : FreeList h l) :
    h.head = NULL ↔ l = [] := by
  cases l with
  | nil => exact iff_of_true hl.path rfl
  | cons a l =>
    refine iff_of_false (fun ha => hl.nonnull ?_) (by simp)
    rw [← ha, hl.path.1]
    exact List.mem_cons_self ..

/-- The heap lies within the words. -/
theorem Layout.start_spec (L : Layout) :
    0 < L.heapStart ∧ L.heapTop < wordSize := by
  have hpos := L.pos
  have hfits := L.fits
  unfold halfLow lowHalfTop sizeofChunk at hfits
  obtain ⟨hle, hlt, _⟩ := align_sixteen (x := L.heapBottom) (by unfold wordSize; omega)
  unfold Layout.heapTop Layout.heapSize Layout.heapStart
  unfold halfLow lowHalfTop sizeofChunk wordSize at *
  omega

/-- The list that the first call makes. -/
theorem firstChunk_list (L : Layout) (h : Heap) :
    FreeList (firstChunk L h) [L.heapStart] ∧ (firstChunk L h).size L.heapStart = L.heapSize ∧
      ∀ c, c ≠ L.heapStart → (firstChunk L h).size c = h.size c := by
  have hpos := L.start_spec.1
  refine ⟨⟨⟨rfl, ?_⟩, by simpa using hpos.ne⟩, ?_, ?_⟩
  · exact (Heap.setNext_next ..).trans (if_pos rfl)
  · rw [firstChunk, Heap.setNext_size, Heap.setSize_size, if_pos rfl]
  · intro c hc
    rw [firstChunk, Heap.setNext_size, Heap.setSize_size, if_neg hc, Heap.withHead_size]

/-- `malloc` searches the list. -/
theorem malloc_of_list {L : Layout} {h : Heap} {l : List Nat} (hl : FreeList h l) (hne : l ≠ [])
    (size fuel : Nat) :
    malloc L size h fuel = mallocFrom h (align size sizeofChunk) fuel := by
  rw [malloc, if_neg (mt hl.head_eq_null_iff.mp hne)]

/-- With no list `malloc` searches the first chunk of all. -/
theorem malloc_of_nil {L : Layout} {h : Heap} (hl : FreeList h []) (size fuel : Nat) :
    malloc L size h fuel = mallocFrom (firstChunk L h) (align size sizeofChunk) fuel := by
  rw [malloc, if_pos (hl.head_eq_null_iff.mpr rfl)]

/-- **What `malloc` does**: no chunk is large enough, or the first one that is gets taken. -/
theorem mallocFrom_cases {h : Heap} {l : List Nat} (hl : FreeList h l) (size : Nat) :
    ((∀ c ∈ l, h.size c < size) ∧ ∃ fuel, mallocFrom h size fuel = some (NULL, h)) ∨
    ∃ l₁ c l₂, l = l₁ ++ c :: l₂ ∧ size ≤ h.size c ∧
      ∃ fuel, mallocFrom h size fuel =
        some ((c + sizeofChunk) % wordSize, grant h size (Slot.after l₁) c) := by
  rcases search_path size .head hl.path hl.nonnull with
    ⟨hsmall, fuel, hex⟩ | ⟨l₁, c, l₂, rfl, _, hc, fuel, hex⟩
  · exact .inl ⟨hsmall, fuel, by rw [mallocFrom, hex]; rfl⟩
  · exact .inr ⟨l₁, c, l₂, rfl, hc, fuel, by rw [mallocFrom, hex]; rfl⟩

/-- More fuel changes no result of the search. -/
theorem mallocFrom_mono {size n m : Nat} {h : Heap} {r : Nat × Heap}
    (hr : mallocFrom h size n = some r) (hle : n ≤ m) : mallocFrom h size m = some r := by
  rw [mallocFrom, Option.map_eq_some_iff] at hr ⊢
  obtain ⟨found, hfound, hr⟩ := hr
  exact ⟨found, iterate_mono hfound hle, hr⟩

theorem mallocFrom_unique {size n m : Nat} {h : Heap} {r r' : Nat × Heap}
    (hr : mallocFrom h size n = some r) (hr' : mallocFrom h size m = some r') : r = r' := by
  have h₁ := mallocFrom_mono hr (Nat.le_max_left n m)
  have h₂ := mallocFrom_mono hr' (Nat.le_max_right n m)
  exact Option.some.inj (h₁.symm.trans h₂)

/-- A request of no bytes is granted. -/
theorem mallocFrom_zero {h : Heap} {l : List Nat} (hl : FreeList h l) (hne : l ≠ [])
    (hlow : ∀ c ∈ l, c + sizeofChunk < wordSize) {fuel : Nat} {r : Nat × Heap}
    (hcall : mallocFrom h 0 fuel = some r) : r.1 ≠ NULL := by
  rcases mallocFrom_cases hl 0 with ⟨hsmall, -⟩ | ⟨l₁, c, l₂, rfl, -, fuel', hsome⟩
  · obtain ⟨c, hc⟩ := List.exists_mem_of_ne_nil l hne
    exact absurd (hsmall c hc) (Nat.not_lt_zero _)
  · rw [← mallocFrom_unique hsome hcall, Nat.mod_eq_of_lt (hlow c (by simp))]
    exact Nat.succ_ne_zero _

theorem malloc_mono {L : Layout} {size n m : Nat} {h : Heap} {r : Nat × Heap}
    (hr : malloc L size h n = some r) (hle : n ≤ m) : malloc L size h m = some r :=
  mallocFrom_mono hr hle

theorem malloc_unique {L : Layout} {size n m : Nat} {h : Heap} {r r' : Nat × Heap}
    (hr : malloc L size h n = some r) (hr' : malloc L size h m = some r') : r = r' :=
  mallocFrom_unique hr hr'

-- ---------------------------------------------------------------------------
-- free
-- ---------------------------------------------------------------------------

theorem free_mono {p n m : Nat} {h h' : Heap} (hr : free p h n = some h') (hle : n ≤ m) :
    free p h m = some h' := by
  unfold free at hr ⊢
  simp only at hr ⊢
  split_ifs at hr ⊢
  · exact hr
  · exact hr
  · obtain ⟨prior, hprior, hr⟩ := Option.map_eq_some_iff.mp hr
    rw [iterate_mono hprior hle, Option.map_some, hr]

theorem free_unique {p n m : Nat} {h h₁ h₂ : Heap} (hr₁ : free p h n = some h₁)
    (hr₂ : free p h m = some h₂) : h₁ = h₂ := by
  have hm₁ := free_mono hr₁ (Nat.le_max_left n m)
  have hm₂ := free_mono hr₂ (Nat.le_max_right n m)
  exact Option.some.inj (hm₁.symm.trans hm₂)

/-- The search for the last chunk below `ck`. -/
theorem prior_path {h : Heap} {ck prior : Nat} : ∀ {l : List Nat} {a b : Nat},
    Path h.next a (l ++ [prior]) b → (∀ c ∈ l ++ [prior], c ≠ NULL ∧ c < ck) → b = NULL ∨ ck ≤ b →
      Exits (priorBody h ck) a prior
  | [], a, b, hpath, _, hb => by
    obtain ⟨rfl, hnext⟩ := hpath
    have hnext : h.next a = b := hnext
    refine exits_of_inr ?_
    rw [priorBody, if_neg]
    rintro ⟨hne, hlt⟩
    rcases hb with hb | hb
    · exact hne (hnext.trans hb)
    · omega
  | c :: l, a, b, hpath, hlow, hb => by
    obtain ⟨rfl, hrest⟩ := hpath
    have hnext : h.next a ∈ l ++ [prior] := by
      cases l with
      | nil => exact hrest.1 ▸ List.mem_singleton_self _
      | cons d l => exact hrest.1 ▸ List.mem_cons_self ..
    have hround : priorBody h ck a = .inl (h.next a) := by
      rw [priorBody, if_pos (hlow _ (List.mem_cons_of_mem _ hnext))]
    exact exits_of_inl hround (prior_path hrest (fun d hd => hlow d (List.mem_cons_of_mem _ hd)) hb)

section Free

variable {h : Heap} {l l₁ l₂ : List Nat} {ck d prior : Nat}

/-- A chunk below all free ones. -/
theorem free_first (hl : FreeList h (d :: l)) (hck : ck + sizeofChunk < wordSize) (hd : ck < d)
    (fuel : Nat) : free (ck + sizeofChunk) h fuel = some (freeFirst h ck) := by
  have hchunk : wsub (ck + sizeofChunk) sizeofChunk = ck := wsub_add (by omega) (by decide)
  have hhead : ck < h.head := hl.path.1 ▸ hd
  simp only [free, hchunk, if_pos hhead]
  exact if_neg (Nat.succ_ne_zero _)

/-- A chunk behind the free one `prior`. -/
theorem free_after (hl : FreeList h (l₁ ++ prior :: l₂)) (hck : ck + sizeofChunk < wordSize)
    (h₁ : ∀ c ∈ l₁ ++ [prior], c < ck) (h₂ : ∀ c ∈ l₂, ck ≤ c) :
    ∃ fuel, free (ck + sizeofChunk) h fuel = some (freeAfter h prior ck) := by
  have hchunk : wsub (ck + sizeofChunk) sizeofChunk = ck := wsub_add (by omega) (by decide)
  have hp : ck + sizeofChunk ≠ NULL := Nat.succ_ne_zero _
  obtain ⟨hfirst, hrest⟩ := hl.split
  have hpath : Path h.next h.head (l₁ ++ [prior]) (h.next prior) :=
    path_append.mpr ⟨prior, hfirst, rfl, rfl⟩
  have hlow : ∀ c ∈ l₁ ++ [prior], c ≠ NULL ∧ c < ck := by
    refine fun c hc => ⟨?_, h₁ c hc⟩
    rintro rfl
    refine hl.nonnull ?_
    simp only [List.mem_append, List.mem_cons, List.not_mem_nil, or_false] at hc ⊢
    tauto
  have hend : h.next prior = NULL ∨ ck ≤ h.next prior := by
    cases l₂ with
    | nil => exact .inl hrest
    | cons d l₂ => exact .inr (hrest.1 ▸ h₂ d (List.mem_cons_self ..))
  obtain ⟨hnz, hlt⟩ : h.head ≠ NULL ∧ h.head < ck := by
    refine hlow _ ?_
    cases l₁ with
    | nil => exact hfirst ▸ List.mem_singleton_self _
    | cons d l₁ => exact hfirst.1 ▸ List.mem_cons_self ..
  obtain ⟨fuel, hex⟩ := prior_path hpath hlow hend
  refine ⟨fuel, ?_⟩
  simp only [free, hchunk, if_neg hp, if_neg hlt.not_gt, if_neg hnz, hex, Option.map_some]

/-- An ascending list has a place for every address. -/
theorem Ascending.place (ha : Ascending h l) (ck : Nat) :
    ∃ l₁ l₂, l = l₁ ++ l₂ ∧ (∀ c ∈ l₁, c < ck) ∧ ∀ c ∈ l₂, ck ≤ c := by
  induction l with
  | nil => exact ⟨[], [], rfl, by simp, by simp⟩
  | cons a l ih =>
    obtain ⟨hasc, hrest⟩ := List.pairwise_cons.mp ha
    by_cases hck : ck ≤ a
    · refine ⟨[], a :: l, rfl, by simp, ?_⟩
      intro c hc
      rcases List.mem_cons.mp hc with rfl | hc
      · exact hck
      · exact hck.trans (hasc c hc).1.le
    · obtain ⟨l₁, l₂, rfl, h₁, h₂⟩ := ih hrest
      refine ⟨a :: l₁, l₂, rfl, ?_, h₂⟩
      intro c hc
      rcases List.mem_cons.mp hc with rfl | hc
      · omega
      · exact h₁ c hc

/-- A chunk linked in behind the chunks `l₁`. -/
theorem freeList_insert {b v : Nat} (hfirst : Path h.next h.head l₁ b)
    (hrest : Path h.next v l₂ NULL) (hnd : (l₁ ++ ck :: l₂).Nodup) (hnull : NULL ∉ l₁ ++ ck :: l₂) :
    FreeList ((h.setNext ck v).store ck (Slot.after l₁)) (l₁ ++ ck :: l₂) := by
  obtain ⟨hnd₁, hnd₂, hne⟩ := List.nodup_append.mp hnd
  obtain ⟨hck₂, -⟩ := List.nodup_cons.mp hnd₂
  have hck₁ : ck ∉ l₁ := fun hmem => hne ck hmem ck (List.mem_cons_self ..) rfl
  have hfirst' : Path (h.setNext ck v).next (h.setNext ck v).head l₁ b := by
    refine path_congr hfirst ?_
    intro c hc
    rw [Heap.setNext_next, if_neg (by rintro rfl; exact hck₁ hc)]
  refine ⟨path_append.mpr ⟨ck, path_store hfirst' hnd₁, rfl, ?_⟩, hnull⟩
  rw [store_next hck₁, Heap.setNext_next, if_pos rfl]
  refine path_congr hrest ?_
  intro c hc
  rw [store_next fun hmem => hne c hmem c (List.mem_cons_of_mem _ hc) rfl, Heap.setNext_next,
    if_neg (by rintro rfl; exact hck₂ hc)]

/-- The sizes do not matter for the list. -/
theorem FreeList.setSize {c v : Nat} (hl : FreeList h l) : FreeList (h.setSize c v) l :=
  ⟨path_congr hl.path fun _ _ => Heap.setSize_next .., hl.nonnull⟩

/-- The chunk `ck` put into the list at a slot, together with the next free chunk if it
touches that one. -/
def linkIn (h : Heap) (s : Slot) (ck : Nat) : Heap :=
  if h.chunkTop ck = h.load s then
    ((h.setSize ck ((h.size ck + (h.size (h.load s) + sizeofPtr)) % wordSize)).setNext ck
      (h.next (h.load s))).store ck s
  else (h.setNext ck (h.load s)).store ck s

/-- A chunk below the list is linked in at the head. -/
theorem freeFirst_eq (h : Heap) (ck : Nat) : freeFirst h ck = linkIn h .head ck := by
  unfold freeFirst linkIn
  simp only [Heap.load, Heap.store, Heap.setSize_next, Heap.setSize_head]
  rfl

/-- A chunk between two others is linked in behind the first. -/
theorem freeAfter_eq (hprior : h.chunkTop prior ≠ ck) (hne : prior ≠ ck) :
    freeAfter h prior ck = linkIn h (.next prior) ck := by
  rw [freeAfter, if_neg hprior, linkIn]
  simp only [Heap.load, Heap.store, Heap.setNext_next, Heap.setNext_size, if_neg hne,
    Heap.setSize_setNext]
  rfl

/-- The chunk `ck` is between the free chunks `l₁` and `l₂`. -/
structure Gap (h : Heap) (l₁ l₂ : List Nat) (ck : Nat) : Prop where
  list      : FreeList h (l₁ ++ l₂)
  ascending : Ascending h (l₁ ++ l₂)
  inside    : ∀ c ∈ l₁ ++ l₂, c + h.len c < wordSize
  pos       : 0 < ck
  top       : ck + h.len ck < wordSize
  below     : ∀ c ∈ l₁, c + h.len c ≤ ck
  above     : ∀ c ∈ l₂, ck + h.len ck ≤ c

/-- No chunk is empty, as each has its header. -/
theorem Heap.len_pos (h : Heap) (c : Nat) : 0 < h.len c := by
  unfold Heap.len sizeofChunk
  omega

/-- The chunk is above those before it and below those behind it. -/
theorem Gap.lt_of_mem (hg : Gap h l₁ l₂ ck) : (∀ c ∈ l₁, c < ck) ∧ ∀ c ∈ l₂, ck < c := by
  constructor
  · intro c hc
    have := hg.below c hc
    have := h.len_pos c
    omega
  · intro c hc
    have := hg.above c hc
    have := h.len_pos ck
    omega

/-- The list with the chunk in its place. -/
theorem Gap.insert (hg : Gap h l₁ l₂ ck) :
    (l₁ ++ ck :: l₂).Nodup ∧ NULL ∉ l₁ ++ ck :: l₂ := by
  obtain ⟨hlow, hhigh⟩ := hg.lt_of_mem
  have hperm : (l₁ ++ ck :: l₂).Perm (ck :: (l₁ ++ l₂)) := List.perm_middle
  rw [hperm.nodup_iff, hperm.mem_iff]
  refine ⟨List.nodup_cons.mpr ⟨?_, hg.ascending.nodup⟩, ?_⟩
  · intro hmem
    rcases List.mem_append.mp hmem with hmem | hmem
    · exact (hlow ck hmem).ne rfl
    · exact (hhigh ck hmem).ne rfl
  · intro hmem
    rcases List.mem_cons.mp hmem with hz | hmem
    · exact hg.pos.ne hz
    · exact hg.list.nonnull hmem

/-- What becomes of a chunk that `free` puts into a gap. Where it touches a free chunk,
half a header is lost. -/
def Merged (h h' : Heap) (l₁ l₂ : List Nat) (ck : Nat) : Prop :=
  (∃ prior ∈ l₁, prior + h.len prior = ck ∧ FreeList h' (l₁ ++ l₂) ∧
    h'.size prior = h.size prior + (sizeofPtr + h.size ck) ∧
    ∀ c, c ≠ prior → h'.size c = h.size c) ∨
  (∃ d l, l₂ = d :: l ∧ ck + h.len ck = d ∧ FreeList h' (l₁ ++ ck :: l) ∧
    h'.size ck = h.size ck + (h.size d + sizeofPtr) ∧ ∀ c, c ≠ ck → h'.size c = h.size c) ∨
  ((∀ c ∈ l₁ ++ l₂, ck + h.len ck ≠ c ∧ c + h.len c ≠ ck) ∧ FreeList h' (l₁ ++ ck :: l₂) ∧
    ∀ c, h'.size c = h.size c)

/-- Linked in, it is merged with the one behind it or stands alone. -/
theorem linkIn_cases (hg : Gap h l₁ l₂ ck) (hprior : ∀ c ∈ l₁, c + h.len c ≠ ck) :
    Merged h (linkIn h (Slot.after l₁) ck) l₁ l₂ ck := by
  obtain ⟨b, hfirst, hrest⟩ := path_append.mp hg.list.path
  have hload := load_after hfirst
  have htop := Heap.chunkTop_eq hg.top
  obtain ⟨hnd, hnull⟩ := hg.insert
  have hlen := h.len_pos ck
  by_cases htouch : ck + h.len ck = b
  · -- the next chunk is there, since `NULL` is not above `ck`
    cases l₂ with
    | nil =>
      have hb : b = NULL := hrest
      unfold NULL at hb
      omega
    | cons d l₂ =>
      obtain ⟨rfl, hrest⟩ := hrest
      have hd := hg.inside b (by simp)
      have hsum : (h.size ck + (h.size b + sizeofPtr)) % wordSize =
          h.size ck + (h.size b + sizeofPtr) := by
        refine Nat.mod_eq_of_lt ?_
        unfold Heap.len sizeofChunk sizeofPtr at *
        omega
      have hsub : (l₁ ++ ck :: l₂).Sublist (l₁ ++ ck :: b :: l₂) :=
        ((List.sublist_cons_self b l₂).cons_cons ck).append_left l₁
      rw [linkIn, if_pos (by rw [htop, hload, htouch]), hload, hsum]
      refine .inr (.inl ⟨b, l₂, rfl, htouch, ?_, ?_, ?_⟩)
      · refine freeList_insert (b := b) (path_congr hfirst fun _ _ => Heap.setSize_next ..)
          (path_congr hrest fun _ _ => Heap.setSize_next ..) (hnd.sublist hsub)
          fun hmem => hnull (hsub.mem hmem)
      · rw [Heap.store_size, Heap.setNext_size, Heap.setSize_size, if_pos rfl]
      · intro c hc
        rw [Heap.store_size, Heap.setNext_size, Heap.setSize_size, if_neg hc]
  · rw [linkIn, if_neg (by rw [htop, hload]; exact htouch), hload]
    refine .inr (.inr ⟨fun c hc => ⟨?_, ?_⟩, freeList_insert hfirst hrest hnd hnull, fun c => ?_⟩)
    · rintro rfl
      rcases List.mem_append.mp hc with hc | hc
      · have := hg.below _ hc
        omega
      · cases l₂ with
        | nil => cases hc
        | cons d l₂ =>
          obtain ⟨rfl, -⟩ := hrest
          have hb := hg.above b (List.mem_cons_self ..)
          rcases List.mem_cons.mp hc with rfl | hc
          · exact htouch rfl
          · have hasc := (List.pairwise_cons.mp (List.pairwise_append.mp hg.ascending).2.1).1 _ hc
            omega
    · rcases List.mem_append.mp hc with hc | hc
      · exact hprior c hc
      · have := hg.above c hc
        have := h.len_pos c
        omega
    · rw [Heap.store_size, Heap.setNext_size]

/-- **What `free` does** with a chunk in a gap of the list. -/
theorem free_cases (hg : Gap h l₁ l₂ ck) (hne : l₁ ++ l₂ ≠ []) :
    ∃ fuel h', free (ck + sizeofChunk) h fuel = some h' ∧ Merged h h' l₁ l₂ ck := by
  obtain ⟨hlow, hhigh⟩ := hg.lt_of_mem
  have hck : ck + sizeofChunk < wordSize := by
    have := hg.top
    unfold Heap.len at this
    omega
  rcases List.eq_nil_or_concat' l₁ with rfl | ⟨l₀, prior, rfl⟩
  · cases l₂ with
    | nil => exact absurd rfl hne
    | cons d l₂ =>
      refine ⟨0, _, free_first hg.list hck (hhigh d (List.mem_cons_self ..)) 0, ?_⟩
      rw [freeFirst_eq]
      exact linkIn_cases hg (by simp)
  · have hmem : prior ∈ l₀ ++ [prior] := by simp
    have hsplit : l₀ ++ [prior] ++ l₂ = l₀ ++ prior :: l₂ := by simp
    have htop := Heap.chunkTop_eq (hg.inside prior (List.mem_append_left _ hmem))
    obtain ⟨fuel, hfree⟩ := free_after (hsplit ▸ hg.list) hck hlow fun c hc => (hhigh c hc).le
    refine ⟨fuel, _, hfree, ?_⟩
    by_cases htouch : prior + h.len prior = ck
    · -- half a header too short, so the next free chunk is not reached
      have hsum : (h.size prior + (sizeofPtr + h.size ck)) % wordSize =
          h.size prior + (sizeofPtr + h.size ck) := by
        refine Nat.mod_eq_of_lt ?_
        have := hg.top
        unfold Heap.len sizeofChunk sizeofPtr at *
        omega
      have hnext : ¬ (h.setSize prior (h.size prior + (sizeofPtr + h.size ck))).chunkTop prior =
          h.next prior := by
        have hlast : h.next prior = NULL ∨ ck + h.len ck ≤ h.next prior := by
          have hrest := (hsplit ▸ hg.list).split.2
          cases l₂ with
          | nil => exact .inl hrest
          | cons d l₂ => exact .inr (hrest.1 ▸ hg.above d (List.mem_cons_self ..))
        have := hg.top
        rw [Heap.chunkTop, Heap.setSize_size, if_pos rfl]
        unfold Heap.len sizeofChunk sizeofPtr NULL wordSize at *
        omega
      have hafter : freeAfter h prior ck =
          h.setSize prior (h.size prior + (sizeofPtr + h.size ck)) := by
        rw [freeAfter, if_pos (by rw [htop]; exact htouch)]
        simp only [hsum, Heap.setSize_next]
        exact if_neg hnext
      rw [hafter]
      refine .inl ⟨prior, hmem, htouch, hg.list.setSize, ?_, ?_⟩
      · rw [Heap.setSize_size, if_pos rfl]
      · intro c hc
        rw [Heap.setSize_size, if_neg hc]
    · rw [freeAfter_eq (by rw [htop]; exact htouch) (hlow prior hmem).ne, ← slot_after_concat l₀ prior]
      refine linkIn_cases hg ?_
      intro c hc
      rcases List.mem_append.mp hc with hc | hc
      · -- the chunk before is followed by `prior`
        have hasc := (List.pairwise_append.mp (List.pairwise_append.mp hg.ascending).1).2.2 c hc
          prior (List.mem_singleton_self _)
        have := hlow prior hmem
        rw [Heap.range_snd] at hasc
        omega
      · rw [List.mem_singleton.mp hc]
        exact htouch

end Free

end Frosk.UserHeap
