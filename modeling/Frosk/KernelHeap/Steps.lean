import Frosk.KernelHeap.Parts

/-!
# Kernel heap: what the functions do

One lemma for each part of `_kalloc` and `_kfree`, on a heap whose free chunks are on a ring
(`OnRing`) and whose pages are divided into chunks (`Divided`): which chunk comes to be where,
and which sizes and links change.

* `took_exact`, `took_only`, `took_divide` — the end of `_kalloc`, by the chunk at `head`.
* `kalloc_cases` — a request of at most a page: where the chunk comes from.
* `kfree_cases` — which neighbour `_kfree` finds, if any; `merge_above` and `merge_below`.
-/

namespace Frosk.KernelHeap

open Lib

/-- A chunk, with its header. -/
def Heap.range (h : Heap) : Nat → Nat × Nat := rangeOf h.size

-- ---------------------------------------------------------------------------
-- Fields after the edits
-- ---------------------------------------------------------------------------

namespace Heap

/-- Storing the link of a chunk. -/
theorem setNext_next (h : Heap) (c v d : Nat) :
    (h.setNext c v).next d = if d = c then v else h.next d := by
  by_cases hd : d = c <;> simp [setNext, next, hd]

@[simp] theorem setNext_size (h : Heap) (c v : Nat) : (h.setNext c v).size = h.size := by
  funext d
  by_cases hd : d = c <;> simp [setNext, size, hd]

@[simp] theorem setSize_next (h : Heap) (c v : Nat) : (h.setSize c v).next = h.next := by
  funext d
  by_cases hd : d = c <;> simp [setSize, next, hd]

/-- Storing the size of a chunk. -/
theorem setSize_size (h : Heap) (c v d : Nat) :
    (h.setSize c v).size d = if d = c then v else h.size d := by
  by_cases hd : d = c <;> simp [setSize, size, hd]

@[simp] theorem setNext_head (h : Heap) (c v : Nat) : (h.setNext c v).head = h.head := rfl
@[simp] theorem setNext_staged (h : Heap) (c v : Nat) : (h.setNext c v).staged = h.staged := rfl
@[simp] theorem setNext_pages (h : Heap) (c v : Nat) : (h.setNext c v).pages = h.pages := rfl
@[simp] theorem setSize_head (h : Heap) (c v : Nat) : (h.setSize c v).head = h.head := rfl
@[simp] theorem setSize_staged (h : Heap) (c v : Nat) : (h.setSize c v).staged = h.staged := rfl
@[simp] theorem setSize_pages (h : Heap) (c v : Nat) : (h.setSize c v).pages = h.pages := rfl
@[simp] theorem setHead_head (h : Heap) (v : Nat) : (h.setHead v).head = v := rfl
@[simp] theorem setHead_next (h : Heap) (v : Nat) : (h.setHead v).next = h.next := rfl
@[simp] theorem setHead_size (h : Heap) (v : Nat) : (h.setHead v).size = h.size := rfl
@[simp] theorem setHead_staged (h : Heap) (v : Nat) : (h.setHead v).staged = h.staged := rfl
@[simp] theorem setHead_pages (h : Heap) (v : Nat) : (h.setHead v).pages = h.pages := rfl
-- not `rfl`: the kernel would compare the counters as well as the field
@[simp] theorem addFree_head (h : Heap) (n : Nat) : (h.addFree n).head = h.head := by cases h; rfl
@[simp] theorem addFree_next (h : Heap) (n : Nat) : (h.addFree n).next = h.next := by cases h; rfl
@[simp] theorem addFree_size (h : Heap) (n : Nat) : (h.addFree n).size = h.size := by cases h; rfl
@[simp] theorem addFree_staged (h : Heap) (n : Nat) : (h.addFree n).staged = h.staged := by cases h; rfl
@[simp] theorem addFree_pages (h : Heap) (n : Nat) : (h.addFree n).pages = h.pages := by cases h; rfl
@[simp] theorem subFree_head (h : Heap) (n : Nat) : (h.subFree n).head = h.head := by cases h; rfl
@[simp] theorem subFree_next (h : Heap) (n : Nat) : (h.subFree n).next = h.next := by cases h; rfl
@[simp] theorem subFree_size (h : Heap) (n : Nat) : (h.subFree n).size = h.size := by cases h; rfl
@[simp] theorem subFree_staged (h : Heap) (n : Nat) : (h.subFree n).staged = h.staged := by cases h; rfl
@[simp] theorem subFree_pages (h : Heap) (n : Nat) : (h.subFree n).pages = h.pages := by cases h; rfl

end Heap

-- ---------------------------------------------------------------------------
-- The invariant
-- ---------------------------------------------------------------------------

/-- The free chunks are a ring, and `head` is one of them; or there are none. -/
def OnRing (h : Heap) : List Nat → Prop
  | [] => h.head = NULL
  | c :: t => IsRing h.next c t ∧ h.head ∈ c :: t

/-- The staged page, the free chunks `R` and the chunks of live blocks `B` are
parts of the heap's pages. -/
structure Divided (h : Heap) (R B : List Nat) : Prop where
  parts : Parts h.pages ((h.staged :: (R ++ B)).map h.range)
  stage : h.size h.staged = adjPageSize

/-- Every chunk of a divided heap is sound. -/
theorem Divided.sound {h : Heap} {R B : List Nat} (hd : Divided h R B) {c : Nat}
    (hc : c ∈ h.staged :: (R ++ B)) : Sound (c, sizeofChunk + h.size c) :=
  hd.parts.sound _ (List.mem_map_of_mem hc)

/-- No two chunks of a divided heap are the same. -/
theorem Divided.nodup {h : Heap} {R B : List Nat} (hd : Divided h R B) :
    (h.staged :: (R ++ B)).Nodup :=
  Parts.nodup hd.parts

/-- The ring depends on the head and the links only. -/
theorem OnRing.congr {h h' : Heap} {R : List Nat} (hr : OnRing h R) (hhead : h'.head = h.head)
    (hnext : h'.next = h.next) : OnRing h' R := by
  cases R with
  | nil => exact hhead.trans hr
  | cons c t =>
    unfold OnRing
    rw [hhead, hnext]
    exact hr

/-- Every chunk that `head` leads to is on the ring. -/
theorem OnRing.iterate_mem {h : Heap} {R : List Nat} (hr : OnRing h R) (hne : h.head ≠ NULL)
    (k : Nat) : h.next^[k] h.head ∈ R := by
  cases R with
  | nil => exact absurd hr hne
  | cons c t =>
    obtain ⟨t', hr', hperm⟩ := hr.1.start_at hr.2
    exact hperm.mem_iff.mp (hr'.iterate_mem k)

/-- Every chunk of the ring is reached from the head. -/
theorem OnRing.exists_iterate {h : Heap} {R : List Nat} (hr : OnRing h R) {c : Nat}
    (hc : c ∈ R) : ∃ k, h.next^[k] h.head = c := by
  cases R with
  | nil => cases hc
  | cons a t =>
    obtain ⟨t', hr', hperm⟩ := hr.1.start_at hr.2
    exact hr'.exists_iterate (hperm.mem_iff.mpr hc)

/-- The ring that `head` is on. -/
theorem OnRing.mem_iff {h : Heap} {R R' : List Nat} (hr : OnRing h R) (hr' : OnRing h R')
    (hne : h.head ≠ NULL) (c : Nat) : c ∈ R ↔ c ∈ R' := by
  constructor
  · intro hc
    obtain ⟨k, rfl⟩ := hr.exists_iterate hc
    exact hr'.iterate_mem hne k
  · intro hc
    obtain ⟨k, rfl⟩ := hr'.exists_iterate hc
    exact hr.iterate_mem hne k

/-- Sizes and places that do not change leave the division as it is. -/
theorem Divided.congr {h h' : Heap} {R B R' B' : List Nat} (hd : Divided h R B)
    (hstaged : h'.staged = h.staged) (hpages : h'.pages = h.pages)
    (hsize : ∀ c ∈ h.staged :: (R ++ B), h'.size c = h.size c)
    (hsub : (R' ++ B').Subperm (R ++ B)) : Divided h' R' B' := by
  obtain ⟨l, hperm, hsl⟩ := hsub
  have hmem : ∀ c ∈ h.staged :: (R' ++ B'), c ∈ h.staged :: (R ++ B) := by
    intro c hc
    rcases List.mem_cons.mp hc with rfl | hc
    · exact List.mem_cons_self ..
    · exact List.mem_cons_of_mem _ (hsl.subset (hperm.mem_iff.mpr hc))
  constructor
  · rw [hstaged, hpages]
    have hsub' : ((h.staged :: l).map h.range).Sublist ((h.staged :: (R ++ B)).map h.range) :=
      (hsl.cons_cons _).map _
    have hparts := (hd.parts.sublist hsub').perm ((hperm.cons _).map h.range)
    exact Parts.congr hparts fun c hc => hsize c (hmem c hc)
  · rw [hstaged, hsize _ (List.mem_cons_self ..)]
    exact hd.stage

-- ---------------------------------------------------------------------------
-- Meeting a request from the chunk at head
-- ---------------------------------------------------------------------------

/-- An exact match is unlinked through `prev`. Chunks between the two, if there
are any, are no longer on the ring. -/
theorem took_exact {h : Heap} {R B d t : List Nat} {prev size : Nat} (hd : Divided h R B)
    (hsize : h.size h.head = size) (hr : IsRing h.next prev (d ++ h.head :: t))
    (hperm : R.Perm (prev :: (d ++ h.head :: t))) :
    ∃ h', take prev size h = some (h.head + sizeofChunk, h') ∧ OnRing h' (prev :: t) ∧
      Divided h' (prev :: t) (h.head :: B) ∧ h'.size = h.size := by
  have hne : ¬ prev = h.head := by
    intro heq
    refine (List.nodup_cons.mp hr.nodup).1 ?_
    rw [heq]
    simp
  have hcut : IsRing (h.setNext prev (h.next h.head)).next prev t := by
    refine isRing_cut hr ?_ fun y hy => ?_
    · rw [Heap.setNext_next, if_pos rfl]
    · have hyp : y ≠ prev := by
        rintro rfl
        refine (List.nodup_cons.mp hr.nodup).1 ?_
        simp [hy]
      rw [Heap.setNext_next, if_neg hyp]
  have hhead : h.next h.head ∈ prev :: t := by
    have hmem := hcut.next_mem (List.mem_cons_self ..)
    rw [Heap.setNext_next, if_pos rfl] at hmem
    exact hmem
  have htake : take prev size h = some (h.head + sizeofChunk,
      ((h.setHead (h.next h.head)).setNext prev (h.next h.head)).subFree size) := by
    rw [take, if_pos hsize, if_neg hne]
  have hcut' : OnRing (h.setHead (h.next h.head) |>.setNext prev (h.next h.head)) (prev :: t) :=
    ⟨hcut, hhead⟩
  refine ⟨_, htake, hcut'.congr (by simp) (by simp), ?_, by simp⟩
  refine hd.congr (by simp) (by simp) (fun c _ => by simp) ?_
  -- the same chunks, some of them on the other side, some gone
  have hsub : (prev :: t ++ h.head :: B).Subperm (prev :: (d ++ h.head :: t) ++ B) := by
    refine ⟨prev :: (h.head :: t) ++ B, ?_, ?_⟩
    · have hswap : (h.head :: t ++ B).Perm (t ++ h.head :: B) := List.perm_middle.symm
      exact hswap.cons prev
    · exact ((List.sublist_append_right d _).cons_cons prev).append_right B
  exact hsub.trans (hperm.symm.append_right B).subperm

/-- The only chunk of the ring is an exact match. -/
theorem took_only {h : Heap} {B : List Nat} {size : Nat} (hd : Divided h [h.head] B)
    (hsize : h.size h.head = size) :
    ∃ h', take h.head size h = some (h.head + sizeofChunk, h') ∧ OnRing h' [] ∧
      Divided h' [] (h.head :: B) ∧ h'.size = h.size := by
  have htake : take h.head size h =
      some (h.head + sizeofChunk, (h.setHead NULL).subFree size) := by
    rw [take, if_pos hsize, if_pos rfl]
  refine ⟨_, htake, ?_, ?_, by simp⟩
  · simp [OnRing]
  · exact hd.congr (by simp) (by simp) (fun c _ => by simp) (List.Subperm.refl _)

/-- `kalloc` cuts the block off the end of a larger chunk. -/
theorem take_larger {h : Heap} {x size : Nat} (hx : h.head = x)
    (hroom : size + sizeofChunk ≤ h.size x) (prev : Nat) :
    take prev size h = some (x + (h.size x - size) + sizeofChunk,
      (((h.setSize x (h.size x - (size + sizeofChunk))).setSize (x + (h.size x - size))
        size).subFree sizeofChunk).subFree size) := by
  have hpos : 0 < sizeofChunk := by decide
  have hne : ¬ h.size h.head = size := by rw [hx]; omega
  have hsum : x + sizeofChunk + (h.size x - (size + sizeofChunk)) = x + (h.size x - size) := by
    omega
  have hself : (h.setSize x (h.size x - (size + sizeofChunk))).size x =
      h.size x - (size + sizeofChunk) := by rw [Heap.setSize_size, if_pos rfl]
  rw [take, if_neg hne, hx, if_pos hroom]
  simp only [Heap.setSize_head, hx, hself, hsum]

/-- A larger chunk is divided; the request gets its upper end. -/
theorem took_divide {h : Heap} {R B : List Nat} {size : Nat} (hd : Divided h R B)
    (hring : OnRing h R) (hmem : h.head ∈ R) (hmul : size % sizeofChunk = 0)
    (hlt : size < h.size h.head) (prev : Nat) :
    ∃ ret h', ret = h.head + (h.size h.head - size) ∧
      take prev size h = some (ret + sizeofChunk, h') ∧ OnRing h' R ∧ Divided h' R (ret :: B) ∧
      h'.size h.head = h.size h.head - (size + sizeofChunk) ∧ h'.size ret = size ∧
      ret ∉ h.staged :: (R ++ B) ∧ ∀ c, c ≠ h.head → c ≠ ret → h'.size c = h.size c := by
  have hall : h.head ∈ h.staged :: (R ++ B) :=
    List.mem_cons_of_mem _ (List.mem_append_left _ hmem)
  have hroom : size + sizeofChunk ≤ h.size h.head := by
    have hun : (sizeofChunk + h.size h.head) % sizeofChunk = 0 := (hd.sound hall).units
    unfold sizeofChunk at *
    omega
  obtain ⟨x, hx⟩ : ∃ x, h.head = x := ⟨_, rfl⟩
  have htake := take_larger hx (hx ▸ hroom) prev
  rw [hx] at hmem hall hroom ⊢
  obtain ⟨ret, hret⟩ : ∃ ret, x + (h.size x - size) = ret := ⟨_, rfl⟩
  have hpos : 0 < sizeofChunk := by decide
  have hxret : x ≠ ret := by omega
  -- the sizes after the two stores
  obtain ⟨h', hh'⟩ : ∃ h', (h.setSize x (h.size x - (size + sizeofChunk))).setSize ret size = h' :=
    ⟨_, rfl⟩
  rw [hret, hh'] at htake
  have hsx : h'.size x = h.size x - (size + sizeofChunk) := by
    rw [← hh', Heap.setSize_size, if_neg hxret, Heap.setSize_size, if_pos rfl]
  have hsret : h'.size ret = size := by rw [← hh', Heap.setSize_size, if_pos rfl]
  have hsame : ∀ c, c ≠ x → c ≠ ret → h'.size c = h.size c := by
    intro c hcx hcret
    rw [← hh', Heap.setSize_size, if_neg hcret, Heap.setSize_size, if_neg hcx]
  subst hret
  obtain ⟨hnew, hparts⟩ := Parts.divideChunk hd.parts hall hmul hroom hsx hsret hsame
  have hback : ((x + (h.size x - size)) :: h.staged :: (R ++ B)).Perm
      (h.staged :: (R ++ (x + (h.size x - size)) :: B)) :=
    (List.Perm.swap ..).trans (List.perm_middle.symm.cons h.staged)
  have hstx : h.staged ≠ x := by
    rintro rfl
    exact (List.nodup_cons.mp hd.nodup).1 (List.mem_append_left _ hmem)
  have hstret : h.staged ≠ x + (h.size x - size) := fun heq => hnew (heq ▸ List.mem_cons_self ..)
  have hstaged : h'.staged = h.staged := by simp [← hh']
  have hpages : h'.pages = h.pages := by simp [← hh']
  have hhead : h'.head = h.head := by simp [← hh']
  have hnext : h'.next = h.next := by simp [← hh']
  refine ⟨x + (h.size x - size), (h'.subFree sizeofChunk).subFree size, rfl, htake,
    hring.congr (by simp [hhead]) (by simp [hnext]), ⟨?_, ?_⟩, ?_, ?_, hnew, fun c hcx hcret => ?_⟩
  · simp only [Heap.subFree_pages, Heap.subFree_staged, Heap.range, Heap.subFree_size, hstaged,
      hpages]
    exact hparts.perm (hback.map (rangeOf h'.size))
  · simp only [Heap.subFree_staged, Heap.subFree_size, hstaged]
    rw [hsame _ hstx hstret]
    exact hd.stage
  · simpa only [Heap.subFree_size] using hsx
  · simpa only [Heap.subFree_size] using hsret
  · simpa only [Heap.subFree_size] using hsame c hcx hcret

-- ---------------------------------------------------------------------------
-- The staged page
-- ---------------------------------------------------------------------------

/-- The next page is staged, away from everything the heap has. -/
theorem stageNewPage_spec {S : PageSource} {h : Heap} {cs : List Nat} {v : Nat}
    (hpick : S.pick pageSize h.pages = some v) (hparts : Parts h.pages (cs.map h.range)) :
    ∃ h', stageNewPage S h = some h' ∧ h'.head = h.head ∧ h'.next = h.next ∧ h'.staged = v ∧
      (∀ c ∈ cs, h'.size c = h.size c) ∧ h'.size v = adjPageSize ∧
      Parts h'.pages ((v :: cs).map h'.range) := by
  have hfresh : v ∉ h.pages := by
    have := S.fresh hpick 0 (by decide)
    simpa using this
  have hpaged := S.paged hpick
  have hnew : v ∉ cs := by
    intro hmem
    have hlt := Parts.start_lt hparts hmem
    have hin : InRange wordSize v (h.range v) :=
      inRange_start hlt (Nat.lt_of_lt_of_le (by decide) (Nat.le_add_right sizeofChunk _))
    have hcov := hparts.covered _ (List.mem_map_of_mem hmem) v hlt hin
    rw [hpaged] at hcov
    exact hfresh hcov
  have hpages : (h.addPages v pageSize).pages = v :: h.pages := by simp [Heap.addPages]
  rw [stageNewPage, hpick, Option.map_some]
  refine ⟨_, rfl, rfl, ?_, rfl, ?_, ?_, ?_⟩
  · rw [Heap.setSize_next]
    rfl
  · intro c hc
    have hcv : c ≠ v := fun heq => hnew (heq ▸ hc)
    rw [Heap.setSize_size, if_neg hcv]
    rfl
  · rw [Heap.setSize_size, if_pos rfl]
  · rw [Heap.setSize_pages]
    show Parts (h.addPages v pageSize).pages _
    rw [hpages, List.map_cons]
    have hcs : Parts h.pages (cs.map (rangeOf
        (({ h.addPages v pageSize with staged := v }).setSize v adjPageSize).size)) := by
      refine Parts.congr hparts ?_
      intro c hc
      have hcv : c ≠ v := fun heq => hnew (heq ▸ hc)
      rw [Heap.setSize_size, if_neg hcv]
      rfl
    have hv : (({ h.addPages v pageSize with staged := v }).setSize v adjPageSize).range v =
        (v, pageSize) := by
      have hsum : sizeofChunk + adjPageSize = pageSize := by decide
      rw [Heap.range, rangeOf, Heap.setSize_size, if_pos rfl, hsum]
    rw [hv]
    exact hcs.addPage hpaged (S.pos hpick) (S.fits hpick) hfresh

/-- The staged page joins the ring behind `head`. -/
theorem addStaged_spec {S : PageSource} {h : Heap} {B t : List Nat} {v : Nat}
    (hpick : S.pick pageSize h.pages = some v) (hd : Divided h (h.head :: t) B)
    (hr : IsRing h.next h.head t) :
    ∃ h', addStaged S h = some h' ∧ h'.head = h.staged ∧
      IsRing h'.next h.head (h.staged :: t) ∧ Divided h' (h.head :: h.staged :: t) B ∧
      h'.size h.staged = adjPageSize ∧
      ∀ c ∈ h.staged :: (h.head :: t ++ B), h'.size c = h.size c := by
  have hnd := hd.nodup
  have hst : h.staged ∉ h.head :: t := fun hmem =>
    (List.nodup_cons.mp hnd).1 (List.mem_append_left _ hmem)
  have hsh : h.staged ≠ h.head := fun heq => hst (heq ▸ List.mem_cons_self ..)
  have hne : h.staged ≠ NULL := by
    have := (hd.sound (List.mem_cons_self ..)).pos
    simp only at this
    unfold NULL
    omega
  obtain ⟨h₁, hh₁⟩ : ∃ h₁, (((h.addFree (h.size h.staged)).setNext h.staged
      (h.next h.head)).setNext h.head h.staged).setHead h.staged = h₁ := ⟨_, rfl⟩
  have hadd : addStaged S h = stageNewPage S h₁ := by
    rw [addStaged, if_neg hne, ← hh₁]
    simp
  have hsize₁ : h₁.size = h.size := by rw [← hh₁]; simp
  have hpages₁ : h₁.pages = h.pages := by rw [← hh₁]; simp
  have hhead₁ : h₁.head = h.staged := by rw [← hh₁]; simp
  have hnext₁ : ∀ d, h₁.next d = if d = h.head then h.staged
      else if d = h.staged then h.next h.head else h.next d := by
    intro d
    rw [← hh₁, Heap.setHead_next, Heap.setNext_next, Heap.setNext_next, Heap.addFree_next]
  have hring : IsRing h₁.next h.head (h.staged :: t) := by
    refine isRing_insert hr hst ?_ ?_ fun y hy => ?_
    · rw [hnext₁, if_pos rfl]
    · rw [hnext₁, if_neg hsh, if_pos rfl]
    · have hyh : y ≠ h.head := fun heq => (List.nodup_cons.mp hr.nodup).1 (heq ▸ hy)
      have hys : y ≠ h.staged := fun heq => hst (heq ▸ List.mem_cons_of_mem _ hy)
      rw [hnext₁, if_neg hyh, if_neg hys]
  have hparts : Parts h₁.pages ((h.staged :: (h.head :: t ++ B)).map h₁.range) := by
    unfold Heap.range
    rw [hsize₁, hpages₁]
    exact hd.parts
  obtain ⟨h', hstage, hhead, hnext, hstaged, hsize, hv, hparts'⟩ :=
    stageNewPage_spec (hpages₁.symm ▸ hpick) hparts
  have hswap : (h.staged :: (h.head :: t ++ B)).Perm (h.head :: h.staged :: t ++ B) :=
    List.Perm.swap ..
  refine ⟨h', hadd.trans hstage, hhead.trans hhead₁, ?_, ⟨?_, ?_⟩, ?_, ?_⟩
  · rw [hnext]
    exact hring
  · rw [hstaged]
    exact hparts'.perm ((hswap.cons v).map _)
  · rw [hstaged]
    exact hv
  · rw [hsize _ (List.mem_cons_self ..), hsize₁]
    exact hd.stage
  · intro c hc
    rw [hsize c hc, hsize₁]

/-- The staged page becomes the ring. -/
theorem onlyStaged_spec {S : PageSource} {h : Heap} {B : List Nat} {v : Nat}
    (hpick : S.pick pageSize h.pages = some v) (hd : Divided h [] B) :
    ∃ h', onlyStaged S h = some h' ∧ h'.head = h.staged ∧ IsRing h'.next h.staged [] ∧
      Divided h' [h.staged] B ∧ h'.size h.staged = adjPageSize ∧
      ∀ c ∈ h.staged :: B, h'.size c = h.size c := by
  have hne : h.staged ≠ NULL := by
    have := (hd.sound (List.mem_cons_self ..)).pos
    simp only at this
    unfold NULL
    omega
  obtain ⟨h₁, hh₁⟩ : ∃ h₁, ((h.addFree (h.size h.staged)).setHead h.staged).setNext h.staged
      h.staged = h₁ := ⟨_, rfl⟩
  have honly : onlyStaged S h = stageNewPage S h₁ := by
    rw [onlyStaged, if_neg hne, ← hh₁]
    simp
  have hsize₁ : h₁.size = h.size := by rw [← hh₁]; simp
  have hpages₁ : h₁.pages = h.pages := by rw [← hh₁]; simp
  have hhead₁ : h₁.head = h.staged := by rw [← hh₁]; simp
  have hparts : Parts h₁.pages ((h.staged :: ([] ++ B)).map h₁.range) := by
    unfold Heap.range
    rw [hsize₁, hpages₁]
    exact hd.parts
  obtain ⟨h', hstage, hhead, hnext, hstaged, hsize, hv, hparts'⟩ :=
    stageNewPage_spec (hpages₁.symm ▸ hpick) hparts
  refine ⟨h', honly.trans hstage, hhead.trans hhead₁, ?_, ⟨?_, ?_⟩, ?_, ?_⟩
  · refine isRing_single ?_
    rw [hnext, ← hh₁, Heap.setNext_next, if_pos rfl]
  · rw [hstaged]
    exact hparts'
  · rw [hstaged]
    exact hv
  · rw [hsize _ (List.mem_cons_self ..), hsize₁]
    exact hd.stage
  · intro c hc
    rw [hsize c hc, hsize₁]

-- ---------------------------------------------------------------------------
-- _kalloc
-- ---------------------------------------------------------------------------

/-- A request of at most a page, rounded up. -/
theorem small_request {size : Nat} (hsize : size ≤ pageSize - sizeofChunk) :
    align size sizeofChunk % sizeofChunk = 0 ∧ align size sizeofChunk ≤ adjPageSize := by
  obtain ⟨_, hlt, hmul⟩ := align_sixteen (x := size)
    (by unfold pageSize sizeofChunk at hsize; unfold wordSize; omega)
  refine ⟨hmul, ?_⟩
  unfold adjPageSize pageSize sizeofChunk at *
  omega

/-- A ring that `head` is on, seen from `head`. -/
theorem OnRing.from_head {h : Heap} {R B : List Nat} {c : Nat} (hring : OnRing h (c :: R))
    (hd : Divided h (c :: R) B) : ∃ t, IsRing h.next h.head t ∧ (h.head :: t).Perm (c :: R) ∧
      h.head ≠ NULL ∧ Divided h (h.head :: t) B := by
  obtain ⟨t, hr, hperm⟩ := hring.1.start_at hring.2
  have hdh : Divided h (h.head :: t) B :=
    hd.congr rfl rfl (fun _ _ => rfl) (hperm.append_right B).subperm
  refine ⟨t, hr, hperm, ?_, hdh⟩
  have hpos := (hdh.sound (List.mem_cons_of_mem _ (List.mem_append_left _
    (List.mem_cons_self ..)))).pos
  simp only at hpos
  unfold NULL
  omega

/-- The chunk before `x`: itself on a ring of one, else one that `x` is behind of. -/
def Before (next : Nat → Nat) (head : Nat) (t : List Nat) (prev x : Nat) : Prop :=
  (prev = x ∧ t = []) ∨ ∃ t', IsRing next prev (x :: t') ∧ (prev :: x :: t').Perm (head :: t)

/-- The chunk before the start of the ring is its last one. -/
theorem before_start {next : Nat → Nat} {head : Nat} {t : List Nat} (hr : IsRing next head t) :
    Before next head t (t.getLastD head) head := by
  rcases List.eq_nil_or_concat t with rfl | ⟨l, p, rfl⟩
  · exact .inl ⟨rfl, rfl⟩
  · have hlast : (l.concat p).getLastD head = p := by simp
    have hr₁ : IsRing next head (l ++ p :: []) := by simpa using hr
    refine .inr ⟨l, ?_, ?_⟩
    · rw [hlast]
      exact isRing_rotate hr₁
    · rw [hlast]
      have hswap : ([p] ++ head :: l).Perm (head :: l ++ [p]) := List.perm_append_comm
      simpa using hswap

section Kalloc

variable {S : PageSource} {junk size n : Nat} {h : Heap} {prev cur fuel : Nat}

/-- When a chunk of the ring fits, it is taken. -/
theorem kalloc_of_fits (hn : align size sizeofChunk = n) (hsmall : ¬ adjPageSize < n)
    (hhead : h.head ≠ NULL) (hs : kallocSearch h n fuel = some ((prev, cur), true)) :
    kalloc S junk size h fuel = take prev n (h.setHead cur) := by
  rw [kalloc, hn]
  simp only [if_neg hsmall, if_pos hhead, hs, Option.bind_some]

/-- When none fits, the staged page is linked in first. -/
theorem kalloc_of_none_fits (hn : align size sizeofChunk = n) (hsmall : ¬ adjPageSize < n)
    (hhead : h.head ≠ NULL) (hs : kallocSearch h n fuel = some ((prev, cur), false)) :
    kalloc S junk size h fuel = (addStaged S (h.setHead cur)).bind (take prev n) := by
  rw [kalloc, hn]
  simp only [if_neg hsmall, if_pos hhead, hs, Option.bind_some]

/-- When the search does not return, `kalloc` does not. -/
theorem kalloc_of_search_none (hn : align size sizeofChunk = n) (hsmall : ¬ adjPageSize < n)
    (hhead : h.head ≠ NULL) (hs : kallocSearch h n fuel = none) :
    kalloc S junk size h fuel = none := by
  rw [kalloc, hn]
  simp only [if_neg hsmall, if_pos hhead, hs, Option.bind_none]

end Kalloc

/-- **Where `_kalloc` takes a request of at most a page from**: the staged page, which becomes
the ring; a chunk of the ring that is large enough; or the staged page again, put on the ring
behind the chunk after `head`. -/
theorem kalloc_cases {S : PageSource} {h : Heap} {R B : List Nat} {size n : Nat} (junk : Nat)
    (hring : OnRing h R) (hd : Divided h R B) (hn : align size sizeofChunk = n)
    (hle : n ≤ adjPageSize) :
    ∃ fuel, (R = [] ∧
        kalloc S junk size h fuel = (onlyStaged S h).bind (take h.staged n)) ∨
      ∃ t, IsRing h.next h.head t ∧ (h.head :: t).Perm R ∧ Divided h (h.head :: t) B ∧
        ((∃ prev x, x ∈ h.head :: t ∧ n ≤ h.size x ∧ Before h.next h.head t prev x ∧
            kalloc S junk size h fuel = take prev n (h.setHead x)) ∨
          (∀ x ∈ h.head :: t, h.size x < n) ∧
            kalloc S junk size h fuel =
              (addStaged S (h.setHead (h.next h.head))).bind (take h.head n)) := by
  have hsmall : ¬ adjPageSize < n := by omega
  cases R with
  | nil =>
    have hnull : h.head = NULL := hring
    refine ⟨0, .inl ⟨rfl, ?_⟩⟩
    rw [kalloc, hn]
    simp only [if_neg hsmall, hnull, ne_eq, not_true, if_false]
  | cons c t₀ =>
    obtain ⟨t, hr, hperm, hhead, hdh⟩ := hring.from_head hd
    have hstop : ∀ x ∈ t, (h.next x == h.next h.head) = false := fun x hx => by
      rw [beq_eq_false_iff_ne]
      exact hr.next_ne hx
    rcases scan_ring hr (fun c => n ≤ h.size c) (fun _ m => m == h.next h.head) hstop
        (beq_self_eq_true _) with
      ⟨t₁, x, t₂, ht, hx, fuel, hfuel⟩ | ⟨_, hx, fuel, hfuel⟩ | ⟨hnone, fuel, hfuel⟩
    · have hr₁ : IsRing h.next h.head (t₁ ++ x :: t₂) := ht ▸ hr
      obtain ⟨t', hr', hp'⟩ := hr₁.start_before
      refine ⟨fuel, .inr ⟨t, hr, hperm, hdh, .inl ⟨t₁.getLastD h.head, x, ?_,
        of_decide_eq_true hx, .inr ⟨t', hr', by rw [ht]; exact hp'⟩, ?_⟩⟩⟩
      · rw [ht]
        simp
      · exact kalloc_of_fits hn hsmall hhead hfuel
    · -- only `head` itself is large enough
      refine ⟨fuel, .inr ⟨t, hr, hperm, hdh, .inl ⟨_, h.head, List.mem_cons_self ..,
        of_decide_eq_true hx, before_start hr, ?_⟩⟩⟩
      exact kalloc_of_fits hn hsmall hhead hfuel
    · refine ⟨fuel, .inr ⟨t, hr, hperm, hdh, .inr ⟨?_, ?_⟩⟩⟩
      · intro x hx
        have hmiss := hnone x hx
        rw [decide_eq_false_iff_not] at hmiss
        omega
      · exact kalloc_of_none_fits hn hsmall hhead hfuel

-- ---------------------------------------------------------------------------
-- _kfree
-- ---------------------------------------------------------------------------

section Kfree

variable {h : Heap} {ck prev x : Nat}

/-- The top of a piece that ends where addresses end is no chunk. -/
theorem eq_top_iff {a b n : Nat} (ha : 0 < a) (hlt : a < wordSize)
    (hfit : b + (sizeofChunk + n) ≤ wordSize) :
    a = (b + sizeofChunk + n) % wordSize ↔ a = b + sizeofChunk + n := by
  rcases Nat.lt_or_ge (b + sizeofChunk + n) wordSize with hin | hout
  · rw [Nat.mod_eq_of_lt hin]
  · have hW : b + sizeofChunk + n = wordSize := by omega
    rw [hW, Nat.mod_self]
    omega

/-- `kfree` merges two chunks when one ends where the other starts. -/
theorem adjacent_iff (hck : 0 < ck) (hfit : ck + (sizeofChunk + h.size ck) ≤ wordSize)
    (hx : 0 < x) (hfitx : x + (sizeofChunk + h.size x) ≤ wordSize) :
    adjacent h (ck + sizeofChunk) ck x = true ↔
      x = ck + sizeofChunk + h.size ck ∨ ck = x + sizeofChunk + h.size x := by
  have hpos : 0 < sizeofChunk := by decide
  rw [adjacent, Bool.or_eq_true, beq_iff_eq, beq_iff_eq, Heap.top,
    eq_top_iff hx (by omega) hfit, eq_top_iff hck (by omega) hfitx]

/-- The block takes the place of the chunk right above it. -/
theorem merge_above (prev : Nat) (hck : 0 < ck) (hx : x = ck + sizeofChunk + h.size ck)
    (hfit : x + (sizeofChunk + h.size x) ≤ wordSize) :
    let h' := merge (ck + sizeofChunk) ck prev x h
    (∀ c, h'.size c = if c = ck then h.size ck + (h.size x + sizeofChunk) else h.size c) ∧
      (∀ c, h'.next c = if c = ck then (if x = prev then ck else h.next x)
        else if c = prev then ck else h.next c) ∧
      h'.head = h.head ∧ h'.staged = h.staged ∧ h'.pages = h.pages := by
  have hpos : 0 < sizeofChunk := by decide
  have habove : x = (ck + sizeofChunk + h.size ck) % wordSize := by
    rw [Nat.mod_eq_of_lt (by omega)]
    exact hx
  have hmod : (h.size ck + (h.size x + sizeofChunk)) % wordSize =
      h.size ck + (h.size x + sizeofChunk) := Nat.mod_eq_of_lt (by omega)
  rw [merge, if_pos habove]
  simp only [Heap.setNext_size, hmod]
  refine ⟨?_, ?_, by simp, by simp, by simp⟩
  · intro c
    rw [Heap.addFree_size, Heap.setSize_size, Heap.setNext_size, Heap.setNext_size]
  · intro c
    rw [Heap.addFree_next, Heap.setSize_next, Heap.setNext_next, Heap.setNext_next,
      Heap.setNext_next]

/-- The links of `merge_above`, where the chunk above is not alone. -/
theorem isRing_merged {next next' : Nat → Nat} {t : List Nat} (hr : IsRing next prev (x :: t))
    (hck : ck ∉ prev :: x :: t)
    (hnext : ∀ c, next' c = if c = ck then (if x = prev then ck else next x)
      else if c = prev then ck else next c) : IsRing next' prev (ck :: t) := by
  have hnode := hr.nodup
  have hxp : x ≠ prev := by
    rintro rfl
    simp at hnode
  have hckp : prev ≠ ck := fun heq => hck (heq ▸ List.mem_cons_self ..)
  refine isRing_replace hr ?_ ?_ ?_ fun y hy => ?_
  · intro hc
    refine hck ?_
    simp only [List.mem_cons] at hc ⊢
    tauto
  · rw [hnext, if_neg hckp, if_pos rfl]
  · rw [hnext, if_pos rfl, if_neg hxp]
  · have hyck : y ≠ ck := fun heq => hck (heq ▸ by simp [hy])
    have hyp : y ≠ prev := by
      rintro rfl
      simp [hy] at hnode
    rw [hnext, if_neg hyck, if_neg hyp]

/-- The block is added to the chunk right below it. -/
theorem merge_below (prev : Nat) (hx : 0 < x) (hck : ck = x + sizeofChunk + h.size x)
    (hfit : ck + (sizeofChunk + h.size ck) ≤ wordSize) :
    let h' := merge (ck + sizeofChunk) ck prev x h
    (∀ c, h'.size c = if c = x then h.size x + (h.size ck + sizeofChunk) else h.size c) ∧
      h'.next = h.next ∧ h'.head = h.head ∧ h'.staged = h.staged ∧ h'.pages = h.pages := by
  have hpos : 0 < sizeofChunk := by decide
  have hnot : ¬ x = (ck + sizeofChunk + h.size ck) % wordSize := by
    rw [eq_top_iff hx (by omega) hfit]
    omega
  have hmod : (h.size x + (h.size ck + sizeofChunk)) % wordSize =
      h.size x + (h.size ck + sizeofChunk) := Nat.mod_eq_of_lt (by omega)
  rw [merge, if_neg hnot, hmod]
  refine ⟨?_, by simp, by simp, by simp, by simp⟩
  intro c
  rw [Heap.addFree_size, Heap.setSize_size]

/-- A block on a heap without free chunks becomes the ring. -/
theorem kfree_empty (hck : ck < wordSize) (hnull : h.head = NULL) (fuel : Nat) :
    kfree (ck + sizeofChunk) h fuel =
      some (((h.addFree (h.size ck)).setHead ck).setNext ck ck) := by
  have hchunk : wsub (ck + sizeofChunk) sizeofChunk = ck := wsub_add hck (by decide)
  rw [kfree, hchunk]
  simp only [Heap.addFree_head, if_pos hnull]

/-- A block that is put on the ring by itself, behind the chunk `x`. -/
theorem isRing_behind {t : List Nat} (hr : IsRing h.next x t) (hck : ck ∉ x :: t) :
    IsRing ((h.setNext ck (h.next x)).setNext x ck).next x (ck :: t) := by
  have hckx : ck ≠ x := fun heq => hck (heq ▸ List.mem_cons_self ..)
  refine isRing_insert hr hck ?_ ?_ fun y hy => ?_
  · rw [Heap.setNext_next, if_pos rfl]
  · rw [Heap.setNext_next, if_neg hckx, Heap.setNext_next, if_pos rfl]
  · have hyx : y ≠ x := fun heq => (List.nodup_cons.mp hr.nodup).1 (heq ▸ hy)
    have hyck : y ≠ ck := fun heq => hck (heq ▸ List.mem_cons_of_mem _ hy)
    rw [Heap.setNext_next, if_neg hyx, Heap.setNext_next, if_neg hyck]

/-- The count of free bytes does not matter for it. -/
theorem addFree_adjacent (n : Nat) : adjacent (h.addFree n) = adjacent h := by
  funext ptr ck it
  simp only [adjacent, Heap.top, Heap.addFree_size]

section Search

variable {fuel : Nat} (hhead : h.head ≠ NULL) (hck : ck < wordSize)
include hhead hck

/-- A block with a neighbour on the ring is merged with it. -/
theorem kfree_of_adjacent
    (hs : kfreeSearch h (ck + sizeofChunk) ck fuel = some ((prev, x), true)) :
    kfree (ck + sizeofChunk) h fuel =
      some (merge (ck + sizeofChunk) ck prev x (h.addFree (h.size ck))) := by
  rw [kfreeSearch] at hs
  rw [kfree, wsub_add hck (by decide), kfreeSearch]
  simp only [addFree_adjacent, Heap.addFree_head, Heap.addFree_next, if_neg hhead, hs,
    Option.map_some]

/-- A block with no neighbour is linked in behind the head. -/
theorem kfree_of_none_adjacent
    (hs : kfreeSearch h (ck + sizeofChunk) ck fuel = some ((prev, x), false)) :
    kfree (ck + sizeofChunk) h fuel =
      some (((h.addFree (h.size ck)).setNext ck (h.next h.head)).setNext h.head ck) := by
  rw [kfreeSearch] at hs
  rw [kfree, wsub_add hck (by decide), kfreeSearch]
  simp only [addFree_adjacent, Heap.addFree_head, Heap.addFree_next, if_neg hhead, hs,
    Option.map_some]

end Search

/-- **Which neighbour `_kfree` finds**: one behind `head`, the first on the way round the ring;
else `head`; or none, and the block goes on the ring behind `head`. -/
theorem kfree_cases {t : List Nat} (hr : IsRing h.next h.head t) (hhead : h.head ≠ NULL) {ck : Nat}
    (hck : ck < wordSize) :
    ∃ fuel h', kfree (ck + sizeofChunk) h fuel = some h' ∧
      ((∃ t₁ x t₂, t = t₁ ++ x :: t₂ ∧ adjacent h (ck + sizeofChunk) ck x = true ∧
          h' = merge (ck + sizeofChunk) ck (t₁.getLastD h.head) x (h.addFree (h.size ck))) ∨
        (∀ x ∈ t, adjacent h (ck + sizeofChunk) ck x = false) ∧
          adjacent h (ck + sizeofChunk) ck h.head = true ∧
          h' = merge (ck + sizeofChunk) ck (t.getLastD h.head) h.head (h.addFree (h.size ck)) ∨
        (∀ x ∈ h.head :: t, adjacent h (ck + sizeofChunk) ck x = false) ∧
          h' = ((h.addFree (h.size ck)).setNext ck (h.next h.head)).setNext h.head ck) := by
  have hstop : ∀ x ∈ t, (x == h.head) = false := fun x hx => by
    rw [beq_eq_false_iff_ne]
    rintro rfl
    exact (List.nodup_cons.mp hr.nodup).1 hx
  rcases scan_ring hr (adjacent h (ck + sizeofChunk) ck) (fun cur _ => cur == h.head) hstop
      (beq_self_eq_true _) with
    ⟨t₁, x, t₂, ht, hx, fuel, hfuel⟩ | ⟨hbefore, hx, fuel, hfuel⟩ | ⟨hnone, fuel, hfuel⟩
  · exact ⟨fuel, _, kfree_of_adjacent hhead hck hfuel, .inl ⟨t₁, x, t₂, ht, hx, rfl⟩⟩
  · exact ⟨fuel, _, kfree_of_adjacent hhead hck hfuel, .inr (.inl ⟨hbefore, hx, rfl⟩)⟩
  · exact ⟨fuel, _, kfree_of_none_adjacent hhead hck hfuel, .inr (.inr ⟨hnone, rfl⟩)⟩

end Kfree

end Frosk.KernelHeap
