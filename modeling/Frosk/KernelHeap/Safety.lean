import Frosk.KernelHeap.Steps

/-!
# Kernel heap: safety

A `Client` is the heap with the blocks its users hold, which the code does not
keep: the pointer that was returned and the size asked for.

Main result: `kernel_heap_safe`, over every run of `_kalloc` and `_kfree` from
`setup_kernel_memory` with requests of at most a page and frees of live blocks:
if no `_kfree` has to merge its block with `head` from below (`HeadKept`), every
call returns, and the live blocks are disjoint from each other and from every
chunk reachable from `head` (`NoOverlap`). Merging with `head` puts the block on
the ring in its place, and `head` still points to a chunk that is no longer
there.
-/

namespace Frosk.KernelHeap

open Lib

structure Client where
  h    : Heap
  live : List (Nat × Nat)

inductive Call where
  | kalloc (size : Nat)
  | kfree (ptr : Nat)

/-- One call, with the pointer it returns; `_kfree` returns nothing. -/
def Client.call (S : PageSource) (junk : Nat) (u : Client) (a : Call) (fuel : Nat) :
    Option (Client × Nat) :=
  match a with
  | .kalloc size => (kalloc S junk size u.h fuel).map fun (p, h) =>
    (⟨h, (p, size) :: u.live⟩, p)
  | .kfree ptr => (kfree ptr u.h fuel).map fun h =>
    (⟨h, u.live.filter fun b => b.1 ≠ ptr⟩, NULL)

def Client.Step (S : PageSource) (junk : Nat) (u : Client) (a : Call) (u' : Client) (p : Nat) :
    Prop :=
  ∃ fuel, u.call S junk a fuel = some (u', p)

/-- Requests of at most a page, with a fresh page at hand should the heap need
one; frees of live blocks. -/
def Client.Legal (S : PageSource) (u : Client) : Call → Prop
  | .kalloc size => 1 ≤ size ∧ size ≤ pageSize - sizeofChunk ∧ (S.pick pageSize u.h.pages).isSome
  | .kfree ptr => ∃ b ∈ u.live, b.1 = ptr

instance (S : PageSource) (u : Client) : (a : Call) → Decidable (u.Legal S a)
  | .kalloc size => inferInstanceAs (Decidable (1 ≤ size ∧ size ≤ pageSize - sizeofChunk ∧
      (S.pick pageSize u.h.pages).isSome))
  | .kfree ptr => inferInstanceAs (Decidable (∃ b ∈ u.live, b.1 = ptr))

/-- A live block, with its header and its size rounded up. -/
def block (b : Nat × Nat) : Nat × Nat :=
  (b.1 - sizeofChunk, sizeofChunk + align b.2 sizeofChunk)

/-- Live blocks are disjoint from each other and from the chunks that can be
reached from `head`. -/
structure NoOverlap (u : Client) : Prop where
  blocks : Apart wordSize (u.live.map block)
  free   : u.h.head ≠ NULL → ∀ b ∈ u.live, ∀ k,
    Disjointed wordSize (block b) (u.h.range (u.h.next^[k] u.h.head))

def SafeAfter (_ : Client) (_ : Call) (u' : Client) (_ : Nat) : Prop := NoOverlap u'

/-- If the block ends where `head` begins, then another chunk of the ring ends
where the block begins, and the block is added to that one. -/
def HeadKept (u : Client) : Call → Prop
  | .kalloc _ => True
  | .kfree ptr => u.h.head ≠ NULL →
      u.h.head = (ptr + u.h.size (ptr - sizeofChunk)) % wordSize →
      ∃ k, u.h.next^[k] u.h.head ≠ u.h.head ∧
        u.h.top (u.h.next^[k] u.h.head) = ptr - sizeofChunk

-- ---------------------------------------------------------------------------
-- The invariant
-- ---------------------------------------------------------------------------

/-- The chunks of the live blocks. -/
def Client.chunks (u : Client) : List Nat := u.live.map fun b => b.1 - sizeofChunk

structure Inv (u : Client) (R : List Nat) : Prop where
  ring    : OnRing u.h R
  divided : Divided u.h R u.chunks
  sized   : ∀ b ∈ u.live, sizeofChunk < b.1 ∧
    u.h.size (b.1 - sizeofChunk) = align b.2 sizeofChunk

-- ---------------------------------------------------------------------------
-- _kalloc
-- ---------------------------------------------------------------------------

/-- What the end of `_kalloc` does: a chunk of the size asked for goes from the
ring to the live blocks, whose sizes stay. -/
def Taken (h : Heap) (prev size : Nat) (B : List Nat) : Prop :=
  ∃ ret h' R', take prev size h = some (ret + sizeofChunk, h') ∧ OnRing h' R' ∧
    Divided h' R' (ret :: B) ∧ h'.size ret = size ∧ ∀ c ∈ B, h'.size c = h.size c

/-- A chunk that is taken whole leaves the ring. -/
theorem taken_exact {h : Heap} {R B d t : List Nat} {prev size : Nat} (hd : Divided h R B)
    (hsize : h.size h.head = size) (hr : IsRing h.next prev (d ++ h.head :: t))
    (hperm : R.Perm (prev :: (d ++ h.head :: t))) : Taken h prev size B := by
  obtain ⟨h', htake, hring, hdiv, hsame⟩ := took_exact hd hsize hr hperm
  exact ⟨h.head, h', prev :: t, htake, hring, hdiv, hsame ▸ hsize, fun c _ => by rw [hsame]⟩

/-- The only chunk is taken whole, and the ring is empty. -/
theorem taken_only {h : Heap} {B : List Nat} {size : Nat} (hd : Divided h [h.head] B)
    (hsize : h.size h.head = size) : Taken h h.head size B := by
  obtain ⟨h', htake, hring, hdiv, hsame⟩ := took_only hd hsize
  exact ⟨h.head, h', [], htake, hring, hdiv, hsame ▸ hsize, fun c _ => by rw [hsame]⟩

/-- A chunk that is larger is divided, and the ring stays. -/
theorem taken_divide {h : Heap} {R B : List Nat} {size : Nat} (hd : Divided h R B)
    (hring : OnRing h R) (hmem : h.head ∈ R) (hmul : size % sizeofChunk = 0)
    (hlt : size < h.size h.head) (prev : Nat) : Taken h prev size B := by
  obtain ⟨ret, h', -, htake, hring', hdiv, -, hret, hnew, hsame⟩ :=
    took_divide hd hring hmem hmul hlt prev
  refine ⟨ret, h', R, htake, hring', hdiv, hret, fun c hc => hsame c ?_ ?_⟩
  · intro heq
    exact (List.nodup_append.mp (List.nodup_cons.mp hd.nodup).2).2.2 _ hmem c hc heq.symm
  · rintro rfl
    exact hnew (List.mem_cons_of_mem _ (List.mem_append_right _ hc))

/-- A chunk of the ring that is large enough, with the one before it. -/
theorem taken_found {h : Heap} {B t : List Nat} {prev x size : Nat}
    (hd : Divided h (h.head :: t) B) (hr : IsRing h.next h.head t) (hmul : size % sizeofChunk = 0)
    (hx : x ∈ h.head :: t) (hfit : size ≤ h.size x) (hprev : Before h.next h.head t prev x) :
    Taken (h.setHead x) prev size B := by
  have hdx : Divided (h.setHead x) (h.head :: t) B :=
    hd.congr (by simp) (by simp) (fun c _ => by simp) (List.Subperm.refl _)
  by_cases heq : h.size x = size
  · rcases hprev with ⟨rfl, rfl⟩ | ⟨t', hr', hperm⟩
    · obtain rfl : prev = h.head := by simpa using hx
      exact taken_only hdx (by simpa using heq)
    · have hcut : IsRing (h.setHead x).next prev ([] ++ (h.setHead x).head :: t') := hr'
      exact taken_exact hdx (by simpa using heq) hcut hperm.symm
  · have hring : OnRing (h.setHead x) (h.head :: t) := ⟨hr, hx⟩
    have hlt : size < h.size x := by omega
    exact taken_divide hdx hring hx hmul hlt prev

/-- The staged page meets the request, with the chunk the search ended at. -/
theorem taken_staged {S : PageSource} {h : Heap} {B t : List Nat} {size v : Nat}
    (hpick : S.pick pageSize h.pages = some v) (hd : Divided h (h.head :: t) B)
    (hr : IsRing h.next h.head t) (hmul : size % sizeofChunk = 0) (hfit : size ≤ adjPageSize) :
    ∃ h', addStaged S (h.setHead (h.next h.head)) = some h' ∧ Taken h' h.head size B ∧
      ∀ c ∈ B, h'.size c = h.size c := by
  -- the ring seen from the chunk behind `head`
  obtain ⟨t', hr', hperm⟩ := hr.start_at (hr.next_mem (List.mem_cons_self ..))
  have hd' : Divided (h.setHead (h.next h.head)) (h.next h.head :: t') B :=
    hd.congr (by simp) (by simp) (fun c _ => by simp) (hperm.append_right B).subperm
  obtain ⟨h', hadd, hhead, hring, hdiv, hst, hsame⟩ :=
    addStaged_spec (h := h.setHead (h.next h.head)) hpick hd' hr'
  simp only [Heap.setHead_head, Heap.setHead_staged, Heap.setHead_size] at hhead hring hdiv hst hsame
  refine ⟨h', hadd, ?_, fun c hc => hsame c (List.mem_cons_of_mem _ (List.mem_append_right _ hc))⟩
  rw [← hhead] at hring hdiv hst
  by_cases heq : adjPageSize = size
  · -- an exact match; with more than one chunk, the first one searched is lost
    have hsize : h'.size h'.head = size := hst.trans heq
    have hmem : h.head ∈ h.next h.head :: t' := hperm.mem_iff.mpr (List.mem_cons_self ..)
    rcases List.mem_cons.mp hmem with hself | htail
    · rw [hself]
      rw [← hself] at hring hdiv ⊢
      have hcut : IsRing h'.next h.head ([] ++ h'.head :: t') := hring
      exact taken_exact hdiv hsize hcut (List.Perm.refl _)
    · obtain ⟨l₁, l₂, rfl⟩ := List.append_of_mem htail
      have hcut : IsRing h'.next h.head (l₂ ++ h.next h.head :: (h'.head :: l₁)) := by
        have hrot : IsRing h'.next (h.next h.head) ((h'.head :: l₁) ++ h.head :: l₂) := hring
        exact isRing_rotate hrot
      have hcut' : IsRing h'.next h.head ((l₂ ++ [h.next h.head]) ++ h'.head :: l₁) := by
        simpa using hcut
      refine taken_exact hdiv hsize hcut' ?_
      have hswap : (h.next h.head :: h'.head :: l₁ ++ h.head :: l₂).Perm
          (h.head :: l₂ ++ h.next h.head :: h'.head :: l₁) := List.perm_append_comm
      simpa using hswap
  · have hlt : size < h'.size h'.head := by
      rw [hst]
      omega
    refine taken_divide hdiv ⟨hring, ?_⟩ ?_ hmul hlt h.head
    · simp
    · simp

/-- **What `_kalloc` does** with a request of at most a page. -/
theorem kalloc_spec {S : PageSource} {h : Heap} {R B : List Nat} {size : Nat} (junk : Nat)
    (hring : OnRing h R) (hd : Divided h R B) (hsize : size ≤ pageSize - sizeofChunk)
    (hpick : (S.pick pageSize h.pages).isSome) :
    ∃ fuel ret h' R', kalloc S junk size h fuel = some (ret + sizeofChunk, h') ∧ OnRing h' R' ∧
      Divided h' R' (ret :: B) ∧ h'.size ret = align size sizeofChunk ∧
      ∀ c ∈ B, h'.size c = h.size c := by
  obtain ⟨v, hv⟩ := Option.isSome_iff_exists.mp hpick
  obtain ⟨hmul, hle⟩ := small_request hsize
  obtain ⟨n, hn⟩ : ∃ n, align size sizeofChunk = n := ⟨_, rfl⟩
  rw [hn] at hmul hle
  -- once the last part is known to succeed, so is the call
  have finish : ∀ (fuel : Nat) {h₁ : Heap} {prev : Nat}, (∀ c ∈ B, h₁.size c = h.size c) →
      Taken h₁ prev n B → kalloc S junk size h fuel = take prev n h₁ →
      ∃ fuel ret h' R', kalloc S junk size h fuel = some (ret + sizeofChunk, h') ∧ OnRing h' R' ∧
        Divided h' R' (ret :: B) ∧ h'.size ret = align size sizeofChunk ∧
        ∀ c ∈ B, h'.size c = h.size c := by
    rintro fuel h₁ prev hsame ⟨ret, h', R', htake, hr', hd', hret, hB⟩ hcall
    exact ⟨fuel, ret, h', R', hcall.trans htake, hr', hd', hret.trans hn.symm,
      fun c hc => (hB c hc).trans (hsame c hc)⟩
  obtain ⟨fuel, ⟨rfl, hcall⟩ | ⟨t, hr, -, hdh, ⟨prev, x, hx, hfit, hprev, hcall⟩ | ⟨-, hcall⟩⟩⟩ :=
    kalloc_cases (S := S) junk hring hd hn hle
  · obtain ⟨h', honly, hhead, hr', hd', hst, hsame⟩ := onlyStaged_spec hv hd
    rw [honly, Option.bind_some, ← hhead] at hcall
    rw [← hhead] at hr' hd' hst
    refine finish fuel (fun c hc => hsame c (List.mem_cons_of_mem _ hc)) ?_ hcall
    by_cases heq : adjPageSize = n
    · exact taken_only hd' (hst.trans heq)
    · have hlt : n < h'.size h'.head := by
        rw [hst]
        omega
      exact taken_divide hd' ⟨hr', List.mem_cons_self ..⟩ (List.mem_cons_self ..) hmul hlt _
  · exact finish fuel (fun c _ => by simp) (taken_found hdh hr hmul hx hfit hprev) hcall
  · obtain ⟨h', hadd, htaken, hsame⟩ := taken_staged hv hdh hr hmul hle
    rw [hadd, Option.bind_some] at hcall
    exact finish fuel hsame htaken hcall

-- ---------------------------------------------------------------------------
-- _kfree
-- ---------------------------------------------------------------------------

/-- What `_kfree` does: the block goes from the live ones to the ring. -/
def Freed (h h' : Heap) (B : List Nat) : Prop :=
  (∃ R', OnRing h' R' ∧ Divided h' R' B) ∧ ∀ c ∈ B, h'.size c = h.size c

/-- The block takes the place of the chunk right above it, which is not `head`. -/
theorem freed_above {h : Heap} {B R t : List Nat} {ck prev x : Nat}
    (hd : Divided h R (ck :: B)) (hr : IsRing h.next prev (x :: t))
    (hperm : (prev :: x :: t).Perm R) (hhead : h.head ∈ R) (hxhead : x ≠ h.head)
    (hx : x = ck + sizeofChunk + h.size ck) :
    Freed h (merge (ck + sizeofChunk) ck prev x h) B := by
  have hnd := hd.nodup
  have hmem : ∀ c ∈ prev :: x :: t, c ∈ R := fun c hc => hperm.mem_iff.mp hc
  have hckR : ck ∉ R := fun hc => by
    have hnd' := (List.nodup_cons.mp hnd).2
    exact (List.nodup_append.mp hnd').2.2 ck hc ck (List.mem_cons_self ..) rfl
  have hckring : ck ∉ prev :: x :: t := fun hc => hckR (hmem ck hc)
  have hxR : x ∈ R := hmem x (by simp)
  have hckall : ck ∈ h.staged :: (R ++ ck :: B) := by simp
  have hxall : x ∈ h.staged :: (R ++ ck :: B) := by simp [hxR]
  obtain ⟨hsize, hnext, hheads, hstaged, hpages⟩ :=
    merge_above prev (hd.sound hckall).pos hx (hd.sound hxall).fits
  generalize merge (ck + sizeofChunk) ck prev x h = h' at hsize hnext hheads hstaged hpages ⊢
  have hring : IsRing h'.next prev (ck :: t) := isRing_merged hr hckring hnext
  have hparts := Parts.joinChunk h'.size hd.parts hckall hxall hx
    (by rw [hsize, if_pos rfl]) (fun c hc => by rw [hsize, if_neg hc])
  refine ⟨⟨prev :: ck :: t, ⟨hring, ?_⟩, ?_, ?_⟩, ?_⟩
  · rw [hheads]
    have hin := hperm.mem_iff.mpr hhead
    simp only [List.mem_cons] at hin ⊢
    tauto
  · rw [hstaged, hpages]
    -- the same chunks, without the one above
    have hlist : (h.staged :: (R ++ ck :: B)).Perm (x :: (h.staged :: (prev :: ck :: t ++ B))) := by
      have h₁ : (R ++ ck :: B).Perm (prev :: x :: t ++ ck :: B) := hperm.symm.append_right _
      have h₂ : (prev :: x :: t ++ ck :: B).Perm (x :: (prev :: ck :: t ++ B)) := by
        have h₃ : (t ++ ck :: B).Perm (ck :: (t ++ B)) := List.perm_middle
        exact (List.Perm.swap ..).trans ((h₃.cons prev).cons x)
      exact ((h₁.trans h₂).cons h.staged).trans (List.Perm.swap ..)
    have herase := hlist.erase x
    rw [List.erase_cons_head] at herase
    exact hparts.perm (herase.map (rangeOf h'.size))
  · have hst : h.staged ≠ ck := by
      rintro heq
      exact (List.nodup_cons.mp hnd).1 (heq ▸ by simp)
    rw [hstaged, hsize, if_neg hst]
    exact hd.stage
  · intro c hc
    have hcck : c ≠ ck := by
      rintro rfl
      have hnd' := (List.nodup_append.mp (List.nodup_cons.mp hnd).2).2.1
      exact (List.nodup_cons.mp hnd').1 hc
    rw [hsize, if_neg hcck]

/-- The block is added to the chunk right below it. -/
theorem freed_below {h : Heap} {B R : List Nat} {ck prev x : Nat}
    (hring : OnRing h R) (hd : Divided h R (ck :: B)) (hxR : x ∈ R)
    (hck : ck = x + sizeofChunk + h.size x) :
    Freed h (merge (ck + sizeofChunk) ck prev x h) B := by
  have hnd := hd.nodup
  have hckall : ck ∈ h.staged :: (R ++ ck :: B) := by simp
  have hxall : x ∈ h.staged :: (R ++ ck :: B) := by simp [hxR]
  obtain ⟨hsize, hnext, hheads, hstaged, hpages⟩ :=
    merge_below prev (hd.sound hxall).pos hck (hd.sound hckall).fits
  generalize merge (ck + sizeofChunk) ck prev x h = h' at hsize hnext hheads hstaged hpages ⊢
  have hparts := Parts.joinChunk h'.size hd.parts hxall hckall hck
    (by rw [hsize, if_pos rfl]) (fun c hc => by rw [hsize, if_neg hc])
  refine ⟨⟨R, hring.congr hheads hnext, ?_, ?_⟩, ?_⟩
  · rw [hstaged, hpages]
    have hlist : (h.staged :: (R ++ ck :: B)).Perm (ck :: (h.staged :: (R ++ B))) :=
      (List.perm_middle.cons h.staged).trans (List.Perm.swap ..)
    have herase := hlist.erase ck
    rw [List.erase_cons_head] at herase
    exact hparts.perm (herase.map (rangeOf h'.size))
  · have hst : h.staged ≠ x := by
      rintro heq
      exact (List.nodup_cons.mp hnd).1 (heq ▸ List.mem_append_left _ hxR)
    rw [hstaged, hsize, if_neg hst]
    exact hd.stage
  · intro c hc
    have hcx : c ≠ x := by
      rintro rfl
      have hnd' := (List.nodup_cons.mp hnd).2
      exact (List.nodup_append.mp hnd').2.2 c hxR c (List.mem_cons_of_mem _ hc) rfl
    rw [hsize, if_neg hcx]

/-- The block goes on the ring by itself, behind `head`. -/
theorem freed_alone {h : Heap} {B t : List Nat} {ck : Nat}
    (hd : Divided h (h.head :: t) (ck :: B)) (hr : IsRing h.next h.head t) :
    Freed h ((h.setNext ck (h.next h.head)).setNext h.head ck) B := by
  have hckring : ck ∉ h.head :: t := fun hc => by
    have hnd' := (List.nodup_cons.mp hd.nodup).2
    exact (List.nodup_append.mp hnd').2.2 ck hc ck (List.mem_cons_self ..) rfl
  refine ⟨⟨h.head :: ck :: t, ⟨isRing_behind hr hckring, by simp⟩, ?_⟩, fun c _ => by simp⟩
  refine hd.congr (by simp) (by simp) (fun c _ => by simp) ?_
  have hswap : (h.head :: t ++ ck :: B).Perm (h.head :: ck :: t ++ B) :=
    (@List.perm_middle _ ck t B).cons h.head
  exact hswap.symm.subperm

/-- **What `_kfree` does** with a live block, unless it has to merge it with
`head` from below. -/
theorem kfree_spec {h : Heap} {R B : List Nat} {ck : Nat} (hring : OnRing h R)
    (hd : Divided h R (ck :: B))
    (hkept : h.head ≠ NULL → h.head = (ck + sizeofChunk + h.size ck) % wordSize →
      ∃ c ∈ R, c ≠ h.head ∧ h.top c = ck) :
    ∃ fuel h', kfree (ck + sizeofChunk) h fuel = some h' ∧ Freed h h' B := by
  have hck := hd.sound (c := ck) (by simp)
  have hpos : 0 < sizeofChunk := by decide
  have hfit : ck + (sizeofChunk + h.size ck) ≤ wordSize := hck.fits
  -- the counter apart, this is the heap the rest of the call works on
  obtain ⟨h₁, hh₁⟩ : ∃ h₁, h.addFree (h.size ck) = h₁ := ⟨_, rfl⟩
  have hhead : h₁.head = h.head := by rw [← hh₁]; simp
  have hnext : h₁.next = h.next := by rw [← hh₁]; simp
  have hsize : h₁.size = h.size := by rw [← hh₁]; simp
  have hring₁ : OnRing h₁ R := hring.congr hhead hnext
  have hd₁ : Divided h₁ R (ck :: B) :=
    hd.congr (by rw [← hh₁]; simp) (by rw [← hh₁]; simp) (fun c _ => by rw [hsize])
      (List.Subperm.refl _)
  have hfreed : ∀ {h'}, Freed h₁ h' B → Freed h h' B := fun hf => by
    rw [Freed, ← hsize]
    exact hf
  cases R with
  | nil =>
    refine ⟨0, _, kfree_empty (by omega) hring 0, hfreed ?_⟩
    rw [hh₁]
    refine ⟨⟨[ck], ⟨isRing_single ?_, ?_⟩, ?_⟩, fun c _ => by simp⟩
    · rw [Heap.setNext_next, if_pos rfl]
    · simp
    · exact hd₁.congr (by simp) (by simp) (fun c _ => by simp) (List.Subperm.refl _)
  | cons c t₀ =>
    obtain ⟨t, hr, hperm, hne, hdh⟩ := hring.from_head hd
    have hdh₁ : Divided h₁ (h₁.head :: t) (ck :: B) :=
      hdh.congr (by rw [← hh₁]; simp) (by rw [← hh₁]; simp) (fun c _ => by rw [hsize])
        (by rw [hhead])
    have hr₁ : IsRing h₁.next h₁.head t := by rwa [hhead, hnext]
    have hsound : ∀ x ∈ h.head :: t, 0 < x ∧ x + (sizeofChunk + h.size x) ≤ wordSize := by
      intro x hx
      have hs := hdh.sound (List.mem_cons_of_mem h.staged (List.mem_append_left _ hx))
      exact ⟨hs.pos, hs.fits⟩
    have hadj : ∀ x ∈ h.head :: t, adjacent h (ck + sizeofChunk) ck x = true ↔
        x = ck + sizeofChunk + h.size ck ∨ ck = x + sizeofChunk + h.size x :=
      fun x hx => adjacent_iff hck.pos hfit (hsound x hx).1 (hsound x hx).2
    have hck0 : ck < wordSize := by omega
    obtain ⟨fuel, h', hcall, ⟨t₁, x, t₂, ht, hx, rfl⟩ | ⟨hbefore, hx, rfl⟩ | ⟨-, rfl⟩⟩ :=
      kfree_cases hr hne hck0
    · refine ⟨fuel, _, hcall, hfreed ?_⟩
      have hxt : x ∈ t := by rw [ht]; simp
      have hxr : x ∈ h.head :: t := List.mem_cons_of_mem _ hxt
      rw [hh₁, ← hhead]
      rcases (hadj x hxr).mp hx with hup | hdown
      · have hxh : x ≠ h₁.head := by
          rw [hhead]
          rintro rfl
          exact (List.nodup_cons.mp hr.nodup).1 hxt
        have hr₂ : IsRing h₁.next h₁.head (t₁ ++ x :: t₂) := ht ▸ hr₁
        obtain ⟨t', hr', hp'⟩ := hr₂.start_before
        exact freed_above hdh₁ hr' (by rw [ht]; exact hp') (List.mem_cons_self ..) hxh
          (hsize ▸ hup)
      · have hor : OnRing h₁ (h₁.head :: t) := ⟨hr₁, List.mem_cons_self ..⟩
        exact freed_below hor hdh₁ (hhead ▸ hxr) (hsize ▸ hdown)
    · -- at `head`, no other chunk is next to the block
      refine ⟨fuel, _, hcall, hfreed ?_⟩
      rw [hh₁, ← hhead]
      have hhr : h.head ∈ h.head :: t := List.mem_cons_self ..
      rcases (hadj _ hhr).mp hx with hup | hdown
      · have hheadfit := (hsound _ hhr).2
        have habove := (eq_top_iff (hsound _ hhr).1 (by omega) hfit).mpr hup
        obtain ⟨c', hc', hch, htop⟩ := hkept hne habove
        have hct : c' ∈ t := (List.mem_cons.mp (hperm.mem_iff.mpr hc')).resolve_left hch
        have hcr := List.mem_cons_of_mem h.head hct
        have hmiss := hbefore c' hct
        rw [Heap.top] at htop
        have hdown := (eq_top_iff hck.pos (by omega) (hsound c' hcr).2).mp htop.symm
        rw [(hadj c' hcr).mpr (.inr hdown)] at hmiss
        cases hmiss
      · have hor : OnRing h₁ (h₁.head :: t) := ⟨hr₁, List.mem_cons_self ..⟩
        exact freed_below hor hdh₁ (List.mem_cons_self ..) (by rw [hhead, hsize]; exact hdown)
    · refine ⟨fuel, _, hcall, hfreed ?_⟩
      rw [hh₁, ← hhead, ← hnext]
      exact freed_alone hdh₁ hr₁

-- ---------------------------------------------------------------------------
-- Whole runs
-- ---------------------------------------------------------------------------

/-- A live block is the chunk in front of it. -/
theorem Inv.block_eq {u : Client} {R : List Nat} (h : Inv u R) {b : Nat × Nat}
    (hb : b ∈ u.live) : block b = u.h.range (b.1 - sizeofChunk) := by
  rw [block, Heap.range, rangeOf, (h.sized b hb).2]

/-- In the invariant no two blocks overlap. -/
theorem Inv.noOverlap {u : Client} {R : List Nat} (h : Inv u R) : NoOverlap u := by
  have hmap : u.live.map block = u.chunks.map u.h.range := by
    rw [Client.chunks, List.map_map]
    exact List.map_congr_left fun b hb => h.block_eq hb
  have hap := h.divided.parts.apart
  rw [List.map_cons, List.map_append] at hap
  obtain ⟨_, hblocks, hcross⟩ := List.pairwise_append.mp (List.pairwise_cons.mp hap).2
  constructor
  · rw [hmap]
    exact hblocks
  · intro hne b hb k
    rw [h.block_eq hb]
    have hc : b.1 - sizeofChunk ∈ u.chunks := List.mem_map_of_mem hb
    exact (hcross _ (List.mem_map_of_mem (h.ring.iterate_mem hne k)) _
      (List.mem_map_of_mem hc)).symm

/-- Every legal `kalloc` returns and keeps the invariant. -/
theorem kalloc_step {S : PageSource} {junk : Nat} {u : Client} {R : List Nat} {size : Nat}
    (h : Inv u R) (hl : u.Legal S (.kalloc size)) :
    ∃ u' p, u.Step S junk (.kalloc size) u' p ∧ ∃ R', Inv u' R' := by
  obtain ⟨_, hsize, hpick⟩ := hl
  obtain ⟨fuel, ret, h', R', hcall, hring, hdiv, hret, hsame⟩ :=
    kalloc_spec junk h.ring h.divided hsize hpick
  have hpos : 0 < ret := (hdiv.sound (c := ret) (by simp)).pos
  have hback : ret + sizeofChunk - sizeofChunk = ret := Nat.add_sub_cancel ..
  refine ⟨⟨h', (ret + sizeofChunk, size) :: u.live⟩, ret + sizeofChunk, ⟨fuel, ?_⟩, R', hring,
    ?_, ?_⟩
  · rw [Client.call, hcall]
    rfl
  · have hchunks : Client.chunks ⟨h', (ret + sizeofChunk, size) :: u.live⟩ = ret :: u.chunks := by
      rw [Client.chunks, List.map_cons, hback]
      rfl
    rw [hchunks]
    exact hdiv
  · intro b hb
    rcases List.mem_cons.mp hb with rfl | hb
    · refine ⟨by simp only; omega, ?_⟩
      simp only [hback]
      exact hret
    · obtain ⟨hb0, hbs⟩ := h.sized b hb
      exact ⟨hb0, (hsame _ (List.mem_map_of_mem hb)).trans hbs⟩

/-- Every legal `kfree` that keeps the head returns and keeps the invariant. -/
theorem kfree_step {S : PageSource} {junk : Nat} {u : Client} {R : List Nat} {ptr : Nat}
    (h : Inv u R) (hl : u.Legal S (.kfree ptr)) (hk : HeadKept u (.kfree ptr)) :
    ∃ u' p, u.Step S junk (.kfree ptr) u' p ∧ ∃ R', Inv u' R' := by
  obtain ⟨b, hb, rfl⟩ := hl
  obtain ⟨l₁, l₂, hlive⟩ := List.append_of_mem hb
  obtain ⟨hb0, _⟩ := h.sized b hb
  have hptr : b.1 - sizeofChunk + sizeofChunk = b.1 := Nat.sub_add_cancel hb0.le
  -- no other live block has the pointer
  have hfilter : u.live.filter (fun c => c.1 ≠ b.1) = l₁ ++ l₂ := by
    have hnd : u.chunks.Nodup :=
      (List.nodup_append.mp (List.nodup_cons.mp h.divided.nodup).2).2.1
    have hne : ∀ c ∈ l₁ ++ l₂, c.1 ≠ b.1 := by
      rw [Client.chunks, hlive, List.map_append, List.map_cons] at hnd
      have hmid := (List.nodup_middle.mp hnd)
      rw [← List.map_append] at hmid
      intro c hc heq
      refine (List.nodup_cons.mp hmid).1 ?_
      rw [← heq]
      exact List.mem_map_of_mem hc
    rw [hlive, List.filter_append, List.filter_cons_of_neg (by simp), ← List.filter_append,
      List.filter_eq_self]
    intro c hc
    simpa using hne c hc
  have hperm : (R ++ u.chunks).Perm (R ++ (b.1 - sizeofChunk) :: (l₁ ++ l₂).map fun c =>
      c.1 - sizeofChunk) := by
    refine List.Perm.append_left R ?_
    rw [Client.chunks, hlive, List.map_append, List.map_cons, List.map_append]
    exact List.perm_middle
  have hd : Divided u.h R ((b.1 - sizeofChunk) :: (l₁ ++ l₂).map fun c => c.1 - sizeofChunk) :=
    h.divided.congr rfl rfl (fun _ _ => rfl) hperm.symm.subperm
  obtain ⟨fuel, h', hcall, ⟨R', hring, hdiv⟩, hsame⟩ := kfree_spec h.ring hd (fun hne heq => by
    rw [hptr] at heq
    obtain ⟨k, hk₁, hk₂⟩ := hk hne heq
    exact ⟨_, h.ring.iterate_mem hne k, hk₁, hk₂⟩)
  rw [hptr] at hcall
  refine ⟨⟨h', l₁ ++ l₂⟩, NULL, ⟨fuel, ?_⟩, R', hring, hdiv, ?_⟩
  · rw [Client.call, hcall, hfilter]
    rfl
  · intro c hc
    have hcu : c ∈ u.live := by
      rw [hlive]
      simp only [List.mem_append, List.mem_cons] at hc ⊢
      tauto
    obtain ⟨hc0, hcs⟩ := h.sized c hcu
    exact ⟨hc0, (hsame _ (List.mem_map_of_mem hc)).trans hcs⟩

/-- The heap right after `setup_kernel_memory`, with nothing allocated. -/
def Client.start (chunk : Nat → Chunk) : Client := ⟨setupKernelMemory chunk, []⟩

/-- The invariant holds at the start. -/
theorem inv_start (chunk : Nat → Chunk) : Inv (Client.start chunk) [kmemStart] := by
  obtain ⟨h, hh⟩ : ∃ h, setupKernelMemory chunk = h := ⟨_, rfl⟩
  have hhead : h.head = kmemStart := by rw [← hh]; rfl
  have hstaged : h.staged = kmemStart + pageSize := by rw [← hh]; rfl
  have hpages : h.pages = [kmemStart, kmemStart + pageSize] := by rw [← hh]; rfl
  have hnext : h.next kmemStart = kmemStart := by
    rw [← hh, setupKernelMemory, Heap.setSize_next, Heap.setNext_next, if_pos rfl]
  have hsize : h.size kmemStart = adjPageSize ∧ h.size (kmemStart + pageSize) = adjPageSize := by
    rw [← hh, setupKernelMemory]
    constructor
    · rw [Heap.setSize_size, if_neg (by decide), Heap.setNext_size, Heap.setSize_size, if_pos rfl]
    · rw [Heap.setSize_size, if_pos rfl]
  have hsum : sizeofChunk + adjPageSize = pageSize := by decide
  have hstart : Client.start chunk = ⟨h, []⟩ := by rw [Client.start, hh]
  rw [hstart]
  refine ⟨⟨isRing_single hnext, ?_⟩, ⟨?_, ?_⟩, by simp⟩
  · rw [hhead]
    exact List.mem_cons_self ..
  · show Parts h.pages ([h.staged, kmemStart].map (rangeOf h.size))
    rw [hstaged, hpages]
    simp only [List.map_cons, List.map_nil, rangeOf, hsize.1, hsize.2, hsum]
    refine ⟨startPages.apart, startPages.sound, ?_⟩
    intro r hr x hx hin
    have := startPages.covered r hr x hx hin
    simp only [List.mem_cons] at this ⊢
    tauto
  · rw [hstaged]
    exact hsize.2

/-- **Kernel heap safety**, over whole runs in which no `_kfree` merges its block
with `head` from below. -/
theorem kernel_heap_safe (S : PageSource) (junk : Nat) (chunk : Nat → Chunk) (calls : List Call)
    (hl : Whenever (Client.Step S junk) (Client.Legal S) (Client.start chunk) calls)
    (hk : Whenever (Client.Step S junk) HeadKept (Client.start chunk) calls) :
    Along (Client.Step S junk) SafeAfter (Client.start chunk) calls := by
  have hstep : ∀ u a, (∃ R, Inv u R) → (u.Legal S a ∧ HeadKept u a) →
      ∃ u' p, Client.Step S junk u a u' p ∧ SafeAfter u a u' p ∧ ∃ R, Inv u' R := by
    rintro u a ⟨R, h⟩ ⟨hl, hk⟩
    have hnext : ∃ u' p, u.Step S junk a u' p ∧ ∃ R', Inv u' R' := by
      cases a with
      | kalloc size => exact kalloc_step h hl
      | kfree ptr => exact kfree_step h hl hk
    obtain ⟨u', p, hs, R', hi⟩ := hnext
    exact ⟨u', p, hs, hi.noOverlap, R', hi⟩
  exact along_of_invariant hstep ⟨_, inv_start chunk⟩ (whenever_and hl hk)

/-- More fuel changes no result of a call. -/
theorem call_fueled (S : PageSource) (junk : Nat) : Fueled (Client.call S junk) := by
  intro u a n m r hle h
  cases a with
  | kalloc size =>
    rw [Client.call, Option.map_eq_some_iff] at h ⊢
    obtain ⟨r', hr', hr⟩ := h
    refine ⟨r', ?_, hr⟩
    unfold kalloc at hr' ⊢
    simp only at hr' ⊢
    split_ifs at hr' ⊢
    · exact hr'
    · obtain ⟨found, hfound, hrest⟩ := Option.bind_eq_some_iff.mp hr'
      rw [kallocSearch] at hfound ⊢
      rw [iterate_mono hfound hle, Option.bind_some]
      exact hrest
    · exact hr'
  | kfree ptr =>
    rw [Client.call, Option.map_eq_some_iff] at h ⊢
    obtain ⟨h', hh', hr⟩ := h
    refine ⟨h', ?_, hr⟩
    unfold kfree at hh' ⊢
    simp only at hh' ⊢
    split_ifs at hh' ⊢
    · exact hh'
    · obtain ⟨found, hfound, hrest⟩ := Option.map_eq_some_iff.mp hh'
      rw [kfreeSearch] at hfound ⊢
      rw [iterate_mono hfound hle, Option.map_some, hrest]

/-- The block does not end at `head`. -/
def endsElsewhere (u : Client) : Call → Bool
  | .kalloc _ => true
  | .kfree ptr => u.h.head != (ptr + u.h.size (ptr - sizeofChunk)) % wordSize

/-- What the check finds is what the condition asks. -/
theorem headKept_of_endsElsewhere {u : Client} {a : Call} (h : endsElsewhere u a = true) :
    HeadKept u a := by
  cases a with
  | kalloc size => trivial
  | kfree ptr =>
    intro _ heq
    rw [endsElsewhere, bne_iff_ne] at h
    exact absurd heq h

/-- Two blocks are allocated and freed; the second takes in the first. -/
theorem kernel_heap_safe_two :
    Along (Client.Step PageSource.upward 0) SafeAfter (Client.start fun _ => ⟨0, 0⟩)
      [.kalloc 100, .kalloc 16, .kfree 0xAF90, .kfree 0xAF70] := by
  have hcomp := (call_fueled PageSource.upward 0).computes 4
  refine kernel_heap_safe PageSource.upward 0 (fun _ => ⟨0, 0⟩) _ ?_ ?_
  · exact whenever_of_checkRun hcomp (by decide +kernel)
  · refine whenever_mono (fun _ _ => headKept_of_endsElsewhere) ?_
    exact whenever_of_checkRun hcomp (by decide +kernel)

/-- The chunk behind `head` is not that of a live block. -/
def nextNotLive (u : Client) : Bool :=
  u.h.head == NULL || u.live.all fun b =>
    !(u.h.next u.h.head == b.1 - sizeofChunk && decide (b.1 - sizeofChunk < wordSize))

/-- In a state without overlap the next chunk is no live block. -/
theorem nextNotLive_of_noOverlap {u : Client} (h : NoOverlap u) : nextNotLive u = true := by
  rw [nextNotLive, Bool.or_eq_true, beq_iff_eq, List.all_eq_true]
  by_cases hnull : u.h.head = NULL
  · exact .inl hnull
  refine .inr ?_
  intro b hb
  rw [Bool.not_eq_true', Bool.and_eq_false_iff, beq_eq_false_iff_ne, decide_eq_false_iff_not]
  by_cases hlt : b.1 - sizeofChunk < wordSize
  · refine .inl ?_
    intro heq
    have hpos : 0 < sizeofChunk := by decide
    have hdis := h.free hnull b hb 1
    rw [Function.iterate_one, heq] at hdis
    exact hdis _ hlt ⟨inRange_start hlt (by omega), inRange_start hlt (by omega)⟩
  · exact .inr hlt

/-- The block freed second ends where `head` begins. The chunk that `head` leads
to is then handed out whole, and stays on the ring. -/
theorem head_absorbed :
    Whenever (Client.Step PageSource.upward 0) (Client.Legal PageSource.upward)
        (Client.start fun _ => ⟨0, 0⟩)
        [.kalloc 64, .kalloc 16, .kalloc 16, .kfree 0xAFC0, .kalloc 16, .kfree 0xAFA0,
          .kalloc 3936] ∧
      ¬ Along (Client.Step PageSource.upward 0) SafeAfter (Client.start fun _ => ⟨0, 0⟩)
        [.kalloc 64, .kalloc 16, .kalloc 16, .kfree 0xAFC0, .kalloc 16, .kfree 0xAFA0,
          .kalloc 3936] := by
  have hcomp := (call_fueled PageSource.upward 0).computes 4
  refine ⟨whenever_of_checkRun hcomp (by decide +kernel), ?_⟩
  intro h
  have hcheck := checkPost_of_along hcomp (q := fun _ _ u' _ => nextNotLive u')
    (fun u a u' p hsafe => nextNotLive_of_noOverlap hsafe) h
  exact absurd hcheck (by decide +kernel)

end Frosk.KernelHeap
