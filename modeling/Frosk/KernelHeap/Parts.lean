import Frosk.KernelHeap.Definitions

/-!
# Kernel heap: how memory is divided

The abstract picture of the heap: its pages are divided into ranges that do not
overlap, each with room for a header. `Parts` says so of a list of ranges, and
the lemmas are the edits an allocator makes on the list: dividing a range,
joining two neighbours, forgetting one, and adding a page.
-/

namespace Frosk.KernelHeap

open Lib

/-- A range with room for a header, in units of headers, that does not wrap. -/
structure Sound (r : Nat × Nat) : Prop where
  aligned : r.1 % sizeofChunk = 0
  pos     : 0 < r.1
  units   : r.2 % sizeofChunk = 0
  room    : sizeofChunk ≤ r.2
  fits    : r.1 + r.2 ≤ wordSize

/-- A range on a boundary, not empty and within the words, is sound. -/
theorem sound_of {a n : Nat}
    (h : a % 16 = 0 ∧ 0 < a ∧ n % 16 = 0 ∧ 16 ≤ n ∧ a + n ≤ wordSize) : Sound (a, n) :=
  ⟨h.1, h.2.1, h.2.2.1, h.2.2.2.1, h.2.2.2.2⟩

/-- The range lies in the given pages. -/
def Covered (pages : List Nat) (r : Nat × Nat) : Prop :=
  ∀ x < wordSize, InRange wordSize x r → x - x % pageSize ∈ pages

structure Parts (pages : List Nat) (l : List (Nat × Nat)) : Prop where
  apart   : Apart wordSize l
  sound   : ∀ r ∈ l, Sound r
  covered : ∀ r ∈ l, Covered pages r

variable {pages : List Nat} {l l' : List (Nat × Nat)} {a s n : Nat}

/-- The order of the parts does not matter. -/
theorem Parts.perm (h : Parts pages l) (hp : l.Perm l') : Parts pages l' :=
  ⟨(apart_perm hp).mp h.apart, fun r hr => h.sound r (hp.mem_iff.mpr hr),
    fun r hr => h.covered r (hp.mem_iff.mpr hr)⟩

/-- Some of the parts are parts as well. -/
theorem Parts.sublist (h : Parts pages l) (hs : l'.Sublist l) : Parts pages l' :=
  ⟨h.apart.sublist hs, fun r hr => h.sound r (hs.subset hr),
    fun r hr => h.covered r (hs.subset hr)⟩

/-- The upper `n` bytes become a range of their own. -/
theorem Parts.divide (h : Parts pages ((a, s) :: l)) (hn : n % sizeofChunk = 0)
    (hroom : sizeofChunk ≤ n) (hrest : n + sizeofChunk ≤ s) :
    Parts pages ((a, s - n) :: (a + (s - n), n) :: l) := by
  obtain ⟨hal, hpos, hun, _, hfit⟩ := h.sound (a, s) (List.mem_cons_self ..)
  simp only at hal hpos hun hfit
  have ha : a < wordSize := by unfold sizeofChunk wordSize at *; omega
  have hs : s < wordSize := by omega
  have hmod : (a + (s - n)) % wordSize = a + (s - n) := by
    unfold sizeofChunk wordSize at *
    omega
  have hns : n ≤ s := by omega
  have hdiv := apart_divide ha hs hns h.apart
  have hcov := h.covered (a, s) (List.mem_cons_self ..)
  rw [hmod] at hdiv
  refine ⟨hdiv, ?_, ?_⟩
  · intro r hr
    simp only [List.mem_cons] at hr
    unfold sizeofChunk at *
    rcases hr with rfl | rfl | hr
    · exact sound_of (by omega)
    · exact sound_of (by omega)
    · exact h.sound r (List.mem_cons_of_mem _ hr)
  · intro r hr
    simp only [List.mem_cons] at hr
    rcases hr with rfl | rfl | hr
    · exact fun x hx hin => hcov x hx (inRange_lower hin)
    · intro x hx hin
      rw [← hmod] at hin
      exact hcov x hx (inRange_upper ha hs hns hx hin).1
    · exact h.covered r (List.mem_cons_of_mem _ hr)

/-- A range and the one right above it. -/
theorem Parts.join (h : Parts pages ((a, s) :: (a + s, n) :: l)) :
    Parts pages ((a, s + n) :: l) := by
  obtain ⟨hal, hpos, hun, hroom, hfit⟩ := h.sound (a, s) (by simp)
  obtain ⟨hal', hpos', hun', hroom', hfit'⟩ := h.sound (a + s, n) (by simp)
  simp only at hal hpos hun hroom hfit hal' hpos' hun' hroom' hfit'
  have ha : a < wordSize := by unfold sizeofChunk wordSize at *; omega
  have hs : s < wordSize := by omega
  have hmod : (a + s) % wordSize = a + s := by unfold sizeofChunk wordSize at *; omega
  have hmod' : (s + n) % wordSize = s + n := by unfold sizeofChunk wordSize at *; omega
  have hjoin := h.apart
  rw [← hmod] at hjoin
  have hap := apart_join ha hs hjoin
  rw [hmod'] at hap
  refine ⟨hap, ?_, ?_⟩
  · intro r hr
    rcases List.mem_cons.mp hr with rfl | hr
    · unfold sizeofChunk at *
      exact sound_of (by omega)
    · exact h.sound r (by simp [hr])
  · intro r hr
    rcases List.mem_cons.mp hr with rfl | hr
    · intro x hx hin
      rw [← hmod'] at hin
      rcases inRange_joined ha hs hx hin with hlow | hhigh
      · exact h.covered (a, s) (by simp) x hx hlow
      · rw [hmod] at hhigh
        exact h.covered (a + s, n) (by simp) x hx hhigh
    · exact h.covered r (by simp [hr])

/-- An address of a page belongs to that page. -/
theorem page_of_inRange {v x : Nat} (hv : v % pageSize = 0) (hfit : v + pageSize ≤ wordSize)
    (hx : x < wordSize) (hin : InRange wordSize x (v, pageSize)) : x - x % pageSize = v := by
  simp only [InRange] at hin
  unfold pageSize wordSize at *
  omega

/-- A fresh page. -/
theorem Parts.addPage {v : Nat} (h : Parts pages l) (hv : v % pageSize = 0) (hpos : 0 < v)
    (hfit : v + pageSize ≤ wordSize) (hfresh : v ∉ pages) :
    Parts (v :: pages) ((v, pageSize) :: l) := by
  refine ⟨List.pairwise_cons.mpr ⟨?_, h.apart⟩, ?_, ?_⟩
  · rintro r hr x hx ⟨h₁, h₂⟩
    refine hfresh ?_
    rw [← page_of_inRange hv hfit hx h₁]
    exact h.covered r hr x hx h₂
  · intro r hr
    rcases List.mem_cons.mp hr with rfl | hr
    · unfold pageSize at *
      exact sound_of (by omega)
    · exact h.sound r hr
  · intro r hr
    rcases List.mem_cons.mp hr with rfl | hr
    · intro x hx hin
      rw [page_of_inRange hv hfit hx hin]
      exact List.mem_cons_self ..
    · exact fun x hx hin => List.mem_cons_of_mem _ (h.covered r hr x hx hin)

/-- The two pages that the heap starts with. -/
theorem startPages : Parts [kmemStart + pageSize, kmemStart]
    [(kmemStart + pageSize, pageSize), (kmemStart, pageSize)] := by
  have hone : Parts [kmemStart] [(kmemStart, pageSize)] :=
    Parts.addPage ⟨List.Pairwise.nil, by simp, by simp⟩ (by decide) (by decide) (by decide)
      (by simp)
  exact hone.addPage (by decide) (by decide) (by decide) (by decide)

-- ---------------------------------------------------------------------------
-- Chunks
-- ---------------------------------------------------------------------------

/-- The range of a chunk, with its header. -/
def rangeOf (size : Nat → Nat) (c : Nat) : Nat × Nat := (c, sizeofChunk + size c)

variable {size size' : Nat → Nat} {cs : List Nat} {x : Nat}

/-- Every part starts at a word. -/
theorem Parts.start_lt (h : Parts pages (cs.map (rangeOf size))) (hx : x ∈ cs) :
    x < wordSize := by
  have hs : Sound (x, sizeofChunk + size x) := h.sound _ (List.mem_map_of_mem hx)
  have hfit : x + (sizeofChunk + size x) ≤ wordSize := hs.fits
  have hroom : 0 < sizeofChunk := by decide
  omega

/-- A chunk does not start inside another one. -/
theorem Parts.not_inside {y : Nat} (h : Parts pages (cs.map (rangeOf size))) (hx : x ∈ cs)
    (hy : y ∈ cs) (hne : y ≠ x) : ¬ InRange wordSize y (rangeOf size x) := by
  intro hin
  have hperm := (List.perm_cons_erase hx).map (rangeOf size)
  have hmem : rangeOf size y ∈ (cs.erase x).map (rangeOf size) :=
    List.mem_map_of_mem ((List.mem_erase_of_ne hne).mpr hy)
  have hlt := h.start_lt hy
  have hstart : InRange wordSize y (rangeOf size y) :=
    inRange_start hlt (Nat.lt_of_lt_of_le (by decide) (Nat.le_add_right sizeofChunk _))
  exact (List.pairwise_cons.mp (h.perm hperm).apart).1 _ hmem y hlt ⟨hin, hstart⟩

/-- Different parts have different starts. -/
theorem Parts.nodup (h : Parts pages (cs.map (rangeOf size))) : cs.Nodup := by
  induction cs with
  | nil => exact List.nodup_nil
  | cons c cs ih =>
    rw [List.map_cons] at h
    refine List.nodup_cons.mpr ⟨?_, ih (h.sublist (List.sublist_cons_self ..))⟩
    intro hmem
    have hlt : c < wordSize := Parts.start_lt h (List.mem_cons_self ..)
    have hin : InRange wordSize c (rangeOf size c) :=
      inRange_start hlt (Nat.lt_of_lt_of_le (by decide) (Nat.le_add_right sizeofChunk _))
    exact (List.pairwise_cons.mp h.apart).1 _ (List.mem_map_of_mem hmem) c hlt ⟨hin, hin⟩

/-- The parts depend on the sizes of their chunks only. -/
theorem Parts.congr (h : Parts pages (cs.map (rangeOf size)))
    (hsame : ∀ c ∈ cs, size' c = size c) : Parts pages (cs.map (rangeOf size')) := by
  have hmap : cs.map (rangeOf size') = cs.map (rangeOf size) :=
    List.map_congr_left fun c hc => by rw [rangeOf, rangeOf, hsame c hc]
  rw [hmap]
  exact h

/-- The upper end of the chunk `x` becomes a chunk of its own. -/
theorem Parts.divideChunk (h : Parts pages (cs.map (rangeOf size))) (hx : x ∈ cs)
    (hn : n % sizeofChunk = 0) (hroom : n + sizeofChunk ≤ size x)
    (hlow : size' x = size x - (n + sizeofChunk)) (hhigh : size' (x + (size x - n)) = n)
    (hsame : ∀ c, c ≠ x → c ≠ x + (size x - n) → size' c = size c) :
    x + (size x - n) ∉ cs ∧ Parts pages (((x + (size x - n)) :: cs).map (rangeOf size')) := by
  have hsx : Sound (x, sizeofChunk + size x) := h.sound _ (List.mem_map_of_mem hx)
  have hfit : x + (sizeofChunk + size x) ≤ wordSize := hsx.fits
  have hpos : 0 < sizeofChunk := by decide
  have hnew : x + (size x - n) ∉ cs := by
    intro hmem
    refine h.not_inside hx hmem (by omega) ?_
    simp only [InRange, rangeOf]
    unfold wordSize at *
    omega
  refine ⟨hnew, ?_⟩
  have hxrest : x ∉ cs.erase x := h.nodup.not_mem_erase
  have hperm := List.perm_cons_erase hx
  have hcut := (h.perm (hperm.map _)).divide (n := sizeofChunk + n)
    (by unfold sizeofChunk at *; omega) (by omega) (by omega)
  have h₁ : sizeofChunk + size x - (sizeofChunk + n) = sizeofChunk + size' x := by omega
  have h₂ : x + (sizeofChunk + size x - (sizeofChunk + n)) = x + (size x - n) := by omega
  have hrest : (cs.erase x).map (rangeOf size) = (cs.erase x).map (rangeOf size') := by
    refine List.map_congr_left ?_
    intro c hc
    have hcx : c ≠ x := fun heq => hxrest (heq ▸ hc)
    have hcn : c ≠ x + (size x - n) := fun heq => hnew (heq ▸ List.mem_of_mem_erase hc)
    rw [rangeOf, rangeOf, hsame c hcx hcn]
  have htop : (x + (size x - n), sizeofChunk + n) = rangeOf size' (x + (size x - n)) := by
    rw [rangeOf, hhigh]
  rw [h₂, h₁, htop, hrest] at hcut
  have hback : (x :: (x + (size x - n)) :: cs.erase x).Perm ((x + (size x - n)) :: cs) :=
    (List.Perm.swap ..).trans (hperm.symm.cons _)
  exact hcut.perm (hback.map (rangeOf size'))

/-- The chunk `y`, right above the chunk `x`, becomes part of it. -/
theorem Parts.joinChunk {y : Nat} (size' : Nat → Nat) (h : Parts pages (cs.map (rangeOf size)))
    (hx : x ∈ cs) (hy : y ∈ cs) (habove : y = x + sizeofChunk + size x)
    (hjoin : size' x = size x + (size y + sizeofChunk))
    (hsame : ∀ c, c ≠ x → size' c = size c) :
    Parts pages ((cs.erase y).map (rangeOf size')) := by
  have hpos : 0 < sizeofChunk := by decide
  have hyx : y ≠ x := by omega
  have hxy : x ∈ cs.erase y := (List.mem_erase_of_ne hyx.symm).mpr hx
  have hxrest : x ∉ (cs.erase y).erase x := (h.nodup.erase y).not_mem_erase
  have hperm : cs.Perm (x :: y :: (cs.erase y).erase x) :=
    ((List.perm_cons_erase hy).trans ((List.perm_cons_erase hxy).cons y)).trans
      (List.Perm.swap ..)
  have hparts := h.perm (hperm.map (rangeOf size))
  simp only [List.map_cons, rangeOf] at hparts
  rw [habove, Nat.add_assoc x] at hparts
  have hcat := hparts.join
  have hsum : sizeofChunk + size x + (sizeofChunk + size (x + (sizeofChunk + size x))) =
      sizeofChunk + size' x := by
    rw [hjoin, habove, Nat.add_assoc x]
    omega
  rw [hsum] at hcat
  have hrest : ((cs.erase y).erase x).map (rangeOf size) =
      ((cs.erase y).erase x).map (rangeOf size') := by
    refine List.map_congr_left ?_
    intro c hc
    have hcx : c ≠ x := fun heq => hxrest (heq ▸ hc)
    rw [rangeOf, rangeOf, hsame c hcx]
  refine Parts.perm ?_ ((List.perm_cons_erase hxy).symm.map _)
  rw [List.map_cons, ← hrest, habove, Nat.add_assoc x]
  exact hcat

end Frosk.KernelHeap
