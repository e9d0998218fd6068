import Frosk.Lib.Cover
import Frosk.KernelHeap.Safety

/-!
# Kernel heap: no free byte is lost

Which bytes the ring covers after `_kfree` and `_kalloc`, headers included.

* `kfree_covers_iff` — `_kfree` leaves a ring from `head` that covers what it covered and the
  block, unless `head` is the chunk right above the block and is found.
* `kalloc_covers_iff` — `_kalloc` of at most a page takes nothing but the block off the ring,
  unless the block is the whole staged page, on a ring of at least two.
-/

namespace Frosk.KernelHeap

open Lib

/-- The bytes of a chunk, with its header. -/
def Heap.len (h : Heap) (c : Nat) : Nat := sizeofChunk + h.size c

/-- No chunk is empty, as each has its header. -/
theorem Heap.len_pos (h : Heap) (c : Nat) : 0 < h.len c :=
  Nat.lt_of_lt_of_le (by decide) (Nat.le_add_right sizeofChunk _)

/-- Chunks of a heap: none at `NULL` or over the top of memory, in units of headers, disjoint. -/
structure Chunks (h : Heap) (l : List Nat) : Prop where
  pos   : ∀ c ∈ l, 0 < c
  fits  : ∀ c ∈ l, c + h.len c ≤ wordSize
  units : ∀ c ∈ l, h.size c % sizeofChunk = 0
  apart : Separate h.len l

/-- The free list from `head`: following `next` visits every chunk once and comes back, and the
chunks cover the bytes of `A`. -/
def RingOver (h : Heap) (A : Set Nat) : Prop :=
  ∃ t, IsRing h.next h.head t ∧ Chunks h (h.head :: t) ∧ cover h.len (h.head :: t) = A

section Chunks

variable {h h' : Heap} {l l' : List Nat} {a b : Nat}

/-- The order of the chunks does not matter. -/
theorem Chunks.perm (hc : Chunks h l) (hp : l.Perm l') : Chunks h l' where
  pos c hm := hc.pos c (hp.mem_iff.mpr hm)
  fits c hm := hc.fits c (hp.mem_iff.mpr hm)
  units c hm := hc.units c (hp.mem_iff.mpr hm)
  apart := (separate_perm hp).mp hc.apart

/-- Some of the chunks are chunks as well. -/
theorem Chunks.sublist (hc : Chunks h l) (hs : l'.Sublist l) : Chunks h l' where
  pos c hm := hc.pos c (hs.subset hm)
  fits c hm := hc.fits c (hs.subset hm)
  units c hm := hc.units c (hs.subset hm)
  apart := hc.apart.sublist hs

/-- The links do not matter either. -/
theorem Chunks.congr (hc : Chunks h l) (hsize : ∀ c ∈ l, h'.size c = h.size c) : Chunks h' l := by
  have hlen : ∀ c ∈ l, h'.len c = h.len c := fun c hm => by rw [Heap.len, Heap.len, hsize c hm]
  refine ⟨hc.pos, ?_, ?_, hc.apart.congr hlen⟩
  · intro c hm
    rw [hlen c hm]
    exact hc.fits c hm
  · intro c hm
    rw [hsize c hm]
    exact hc.units c hm

/-- Chunks that are apart are different. -/
theorem Chunks.nodup (hc : Chunks h l) : l.Nodup := hc.apart.nodup fun c _ => h.len_pos c

/-- The chunk `b`, right above the chunk `a`, becomes part of it. -/
theorem Chunks.join (hc : Chunks h (a :: b :: l)) (hab : b = a + sizeofChunk + h.size a)
    (hsize : ∀ c, h'.size c = if c = a then h.size a + (h.size b + sizeofChunk) else h.size c) :
    Chunks h' (a :: l) ∧ cover h'.len (a :: l) = cover h.len (a :: b :: l) := by
  have hla : h.len a = sizeofChunk + h.size a := rfl
  have hlb : h.len b = sizeofChunk + h.size b := rfl
  have hab' : b = a + h.len a := by omega
  have hself : h'.size a = h.size a + (h.size b + sizeofChunk) := by rw [hsize, if_pos rfl]
  have hlen : h'.len a = h.len a + h.len b := by
    rw [Heap.len, hself]
    omega
  have hnot : a ∉ l := fun hm =>
    (List.nodup_cons.mp hc.nodup).1 (List.mem_cons_of_mem _ hm)
  have hsame : ∀ c ∈ l, h'.size c = h.size c := by
    intro c hm
    have hca : c ≠ a := fun heq => hnot (heq ▸ hm)
    rw [hsize, if_neg hca]
  have hsamelen : ∀ c ∈ l, h'.len c = h.len c := fun c hm => by
    rw [Heap.len, Heap.len, hsame c hm]
  have hrest : Chunks h' l :=
    (hc.sublist ((List.sublist_cons_self b l).trans (List.sublist_cons_self a _))).congr hsame
  have hfitb := hc.fits b (by simp)
  have hunita := hc.units a (by simp)
  have hunitb := hc.units b (by simp)
  refine ⟨⟨?_, ?_, ?_, ?_⟩, cover_join hab' hlen hsamelen⟩
  · exact List.forall_mem_cons.mpr ⟨hc.pos a (by simp), hrest.pos⟩
  · refine List.forall_mem_cons.mpr ⟨?_, hrest.fits⟩
    rw [hlen]
    omega
  · refine List.forall_mem_cons.mpr ⟨?_, hrest.units⟩
    rw [hself]
    unfold sizeofChunk at *
    omega
  · exact separate_join hc.apart hab' hlen (fun c _ => h.len_pos c) hsamelen

end Chunks

-- ---------------------------------------------------------------------------
-- _kfree
-- ---------------------------------------------------------------------------

section Kfree

variable {h : Heap} {t : List Nat} {ck prev x : Nat}

/-- A ring that `head` is on covers what its chunks cover. -/
theorem ringOver_of {h' : Heap} {c : Nat} {l : List Nat} {A : Set Nat} (hr : IsRing h'.next c l)
    (hhead : h'.head ∈ c :: l) (hc : Chunks h' (c :: l)) (hA : cover h'.len (c :: l) = A) :
    RingOver h' A := by
  obtain ⟨t, hr', hperm⟩ := hr.start_at hhead
  exact ⟨t, hr', hc.perm hperm.symm, (cover_perm hperm).trans hA⟩

/-- The block takes the place of the chunk above it, which is not `head`. -/
theorem above_covers {t' : List Nat} (hr : IsRing h.next prev (x :: t'))
    (hperm : (prev :: x :: t').Perm (h.head :: t)) (hxh : x ≠ h.head)
    (hc : Chunks h (ck :: h.head :: t)) (hup : x = ck + sizeofChunk + h.size ck) :
    RingOver (merge (ck + sizeofChunk) ck prev x h) (cover h.len (ck :: h.head :: t)) := by
  have hc' : Chunks h (ck :: prev :: x :: t') := hc.perm (hperm.symm.cons ck)
  obtain ⟨hsize, hnext, hhead, -, -⟩ :=
    merge_above prev (hc'.pos ck (by simp)) hup (hc'.fits x (by simp))
  generalize merge (ck + sizeofChunk) ck prev x h = h' at hsize hnext hhead ⊢
  have hring := isRing_merged hr (List.nodup_cons.mp hc'.nodup).1 hnext
  have hup' : (ck :: prev :: x :: t').Perm (ck :: x :: prev :: t') := (List.Perm.swap ..).cons ck
  have hout : (prev :: ck :: t').Perm (ck :: prev :: t') := List.Perm.swap ..
  obtain ⟨hjoin, hcov⟩ := (hc'.perm hup').join hup hsize
  refine ringOver_of hring ?_ (hjoin.perm hout.symm) ?_
  · have hmem : h.head ∈ prev :: x :: t' := hperm.mem_iff.mpr (List.mem_cons_self ..)
    rw [hhead]
    simp only [List.mem_cons] at hmem ⊢
    tauto
  · rw [cover_perm hout, hcov, cover_perm hup'.symm, cover_perm (hperm.cons ck)]

/-- The block is added to the chunk below it. -/
theorem below_covers (hr : IsRing h.next h.head t) (hx : x ∈ h.head :: t)
    (hc : Chunks h (ck :: h.head :: t)) (hdown : ck = x + sizeofChunk + h.size x) :
    RingOver (merge (ck + sizeofChunk) ck prev x h) (cover h.len (ck :: h.head :: t)) := by
  obtain ⟨hsize, hnext, hhead, -, -⟩ := merge_below prev
    (hc.pos x (List.mem_cons_of_mem _ hx)) hdown (hc.fits ck (List.mem_cons_self ..))
  generalize merge (ck + sizeofChunk) ck prev x h = h' at hsize hnext hhead ⊢
  have hout := List.perm_cons_erase hx
  have hin : (ck :: h.head :: t).Perm (x :: ck :: (h.head :: t).erase x) :=
    (hout.cons ck).trans (List.Perm.swap ..)
  obtain ⟨hjoin, hcov⟩ := (hc.perm hin).join hdown hsize
  refine ringOver_of (hnext ▸ hr) (by simp [hhead]) (hjoin.perm hout.symm) ?_
  rw [cover_perm hout, hcov, cover_perm hin]

/-- When `head` itself is replaced, no ring is left that leads back to it. -/
theorem head_lost (hr : IsRing h.next h.head t) (hc : Chunks h (ck :: h.head :: t))
    (hup : h.head = ck + sizeofChunk + h.size ck) (A : Set Nat) :
    ¬ RingOver (merge (ck + sizeofChunk) ck (t.getLastD h.head) h.head h) A := by
  obtain ⟨-, hnext, hhead, -, -⟩ := merge_above (t.getLastD h.head)
    (hc.pos ck (by simp)) hup (hc.fits h.head (by simp))
  generalize merge (ck + sizeofChunk) ck (t.getLastD h.head) h.head h = h' at hnext hhead ⊢
  have hckh : ck ≠ h.head := by
    have hpos : 0 < sizeofChunk := by decide
    omega
  rintro ⟨t', hr', -, -⟩
  rw [hhead] at hr'
  refine not_isRing (· ∈ ck :: h.head :: t) (by simp) (fun c hm => ?_) (fun c hm => ?_) t' hr'
  · rw [hnext]
    split_ifs with hcck hlast hclast
    · exact List.mem_cons_self ..
    · exact List.mem_cons_of_mem _ (hr.next_mem (List.mem_cons_self ..))
    · exact List.mem_cons_self ..
    · exact List.mem_cons_of_mem _ (hr.next_mem ((List.mem_cons.mp hm).resolve_left hcck))
  · rw [hnext]
    split_ifs with hcck hlast hclast
    · exact hckh
    · exact fun hback => hlast (hr.eq_last (List.mem_cons_self ..) hback)
    · exact hckh
    · exact fun hback => hclast (hr.eq_last ((List.mem_cons.mp hm).resolve_left hcck) hback)

/-- **`_kfree` keeps the ring**, with the block on it, exactly when `head` is not the chunk that
the block is merged with from below: no block ends where `head` begins, or some other chunk
ends where the block begins and is found first. -/
theorem kfree_covers_iff (hr : IsRing h.next h.head t) (hc : Chunks h (ck :: h.head :: t)) :
    ∃ fuel h', kfree (ck + sizeofChunk) h fuel = some h' ∧
      (RingOver h' (cover h.len (h.head :: t) ∪ Set.Ico ck (ck + h.len ck)) ↔
        (h.head = ck + sizeofChunk + h.size ck → ∃ c ∈ t, c + sizeofChunk + h.size c = ck)) := by
  have hlen : ∀ c, h.len c = sizeofChunk + h.size c := fun _ => rfl
  have hfit := hc.fits ck (by simp)
  have hpos := hc.pos ck (by simp)
  have hhead : h.head ≠ NULL := (hc.pos h.head (by simp)).ne'
  have hadj : ∀ x ∈ h.head :: t, adjacent h (ck + sizeofChunk) ck x = true ↔
      x = ck + sizeofChunk + h.size ck ∨ ck = x + sizeofChunk + h.size x := fun x hx =>
    adjacent_iff hpos hfit (hc.pos x (List.mem_cons_of_mem _ hx))
      (hc.fits x (List.mem_cons_of_mem _ hx))
  have hA : Set.Ico ck (ck + h.len ck) ∪ cover h.len (h.head :: t) =
      cover h.len (ck :: h.head :: t) := cover_cons.symm
  rw [Set.union_comm, hA]
  have hck : ck < wordSize := by
    have hroom := h.len_pos ck
    omega
  obtain ⟨fuel, h', hcall, hcase⟩ := kfree_cases hr hhead hck
  refine ⟨fuel, h', hcall, ?_⟩
  -- the counter apart, this is the heap the rest of the call works on
  obtain ⟨h₁, hh₁⟩ : ∃ h₁, h.addFree (h.size ck) = h₁ := ⟨_, rfl⟩
  have hhead₁ : h₁.head = h.head := by rw [← hh₁]; simp
  have hnext₁ : h₁.next = h.next := by rw [← hh₁]; simp
  have hsize₁ : h₁.size = h.size := by rw [← hh₁]; simp
  have hlen₁ : h₁.len = h.len := by
    funext c
    rw [Heap.len, Heap.len, hsize₁]
  have hr₁ : IsRing h₁.next h₁.head t := by rwa [hhead₁, hnext₁]
  have hc₁ : Chunks h₁ (ck :: h₁.head :: t) := by
    rw [hhead₁]
    exact hc.congr fun c _ => by rw [hsize₁]
  rw [hh₁, ← hhead₁, ← hnext₁] at hcase
  rw [← hhead₁, ← hlen₁, ← hsize₁]
  rw [← hsize₁] at hadj
  rcases hcase with ⟨t₁, x, t₂, rfl, hx, rfl⟩ | ⟨hmiss, hx, rfl⟩ | ⟨hmiss, rfl⟩
  · have hxt : x ∈ t₁ ++ x :: t₂ := by simp
    have hxh : x ≠ h₁.head := by
      rintro rfl
      exact (List.nodup_cons.mp hr₁.nodup).1 hxt
    rcases (hadj x (List.mem_cons_of_mem _ hxt)).mp hx with hup | hdown
    · obtain ⟨t', hr', hperm⟩ := hr₁.start_before
      refine iff_of_true (above_covers hr' hperm hxh hc₁ hup) ?_
      intro habove
      exact absurd (hup.trans habove.symm) hxh
    · exact iff_of_true (below_covers hr₁ (List.mem_cons_of_mem _ hxt) hc₁ hdown)
        fun _ => ⟨x, hxt, hdown.symm⟩
  · have hnone : ∀ c ∈ t, c + sizeofChunk + h₁.size c ≠ ck := by
      intro c hct htop
      have hno := hmiss c hct
      rw [(hadj c (List.mem_cons_of_mem _ hct)).mpr (.inr htop.symm)] at hno
      cases hno
    rcases (hadj h.head (List.mem_cons_self ..)).mp (hhead₁ ▸ hx) with hup | hdown
    · rw [← hhead₁] at hup
      refine iff_of_false (head_lost hr₁ hc₁ hup _) ?_
      intro habove
      obtain ⟨c, hct, htop⟩ := habove hup
      exact hnone c hct htop
    · rw [← hhead₁] at hdown
      refine iff_of_true (below_covers hr₁ (List.mem_cons_self ..) hc₁ hdown) ?_
      intro hup
      have hpos : 0 < sizeofChunk := by decide
      omega
  · rw [hhead₁] at hmiss
    have hnot := (List.nodup_cons.mp hc₁.nodup).1
    have hswap : (h₁.head :: ck :: t).Perm (ck :: h₁.head :: t) := List.Perm.swap ..
    refine iff_of_true ?_ fun hup => ?_
    · refine ringOver_of (isRing_behind hr₁ hnot) (by simp) ?_ ?_
      · exact (hc₁.perm hswap.symm).congr fun c _ => by simp
      · rw [cover_perm hswap]
        exact cover_congr fun c _ => by simp [Heap.len]
    · have hno := hmiss h.head (List.mem_cons_self ..)
      rw [(hadj h.head (List.mem_cons_self ..)).mpr (.inl (hhead₁ ▸ hup))] at hno
      cases hno

end Kfree

section Example

/-- A ring of one chunk of 64 bytes; every other header says 32 bytes. -/
def oneFree : Heap :=
  ⟨0x1030, 0x2000, fun c => if c = 0x1030 then ⟨64, 0x1030⟩ else ⟨32, NULL⟩, 0, []⟩

/-- The head of this heap is a ring of one chunk. -/
theorem oneFree_ring : IsRing oneFree.next oneFree.head [] := isRing_single rfl

/-- A block beside it is apart from it. -/
theorem oneFree_chunks {ck : Nat} (h : ck = 0x1000 ∨ ck = 0x1080) :
    Chunks oneFree [ck, 0x1030] := by
  obtain rfl | rfl := h
  · exact ⟨by decide, by decide, by decide, by unfold Separate; decide⟩
  · exact ⟨by decide, by decide, by decide, by unfold Separate; decide⟩

/-- A free in the heap of one chunk. -/
theorem kfree_covers_one : ∃ fuel h', kfree (0x1080 + sizeofChunk) oneFree fuel = some h' ∧
    (RingOver h' (cover oneFree.len [0x1030] ∪ Set.Ico 0x1080 (0x1080 + oneFree.len 0x1080)) ↔
      (0x1030 = 0x1080 + sizeofChunk + oneFree.size 0x1080 →
        ∃ c ∈ [], c + sizeofChunk + oneFree.size c = 0x1080)) :=
  kfree_covers_iff (h := oneFree) oneFree_ring (oneFree_chunks (.inr rfl))

/-- The block at `0x1000` ends where the only chunk begins. It takes the place of that chunk,
and `head` still points to where the chunk was. -/
theorem head_replaced : IsRing oneFree.next oneFree.head [] ∧ Chunks oneFree [0x1000, 0x1030] ∧
    ∃ fuel h', kfree (0x1000 + sizeofChunk) oneFree fuel = some h' ∧
      ¬ RingOver h' (cover oneFree.len [0x1030] ∪ Set.Ico 0x1000 (0x1000 + oneFree.len 0x1000)) := by
  have hchunks := oneFree_chunks (.inl rfl)
  refine ⟨oneFree_ring, hchunks, ?_⟩
  obtain ⟨fuel, h', hcall, ⟨t₁, x, t₂, ht, -⟩ | ⟨-, -, rfl⟩ | ⟨hmiss, -⟩⟩ :=
    kfree_cases oneFree_ring (by decide) (by decide : 0x1000 < wordSize)
  · cases t₁ <;> cases ht
  · refine ⟨fuel, _, hcall, ?_⟩
    exact head_lost (h := oneFree.addFree 32) oneFree_ring (hchunks.congr fun c _ => by simp) rfl _
  · have hadj : adjacent oneFree (0x1000 + sizeofChunk) 0x1000 oneFree.head = true := by decide
    rw [hmiss _ (List.mem_cons_self ..)] at hadj
    cases hadj

end Example

-- ---------------------------------------------------------------------------
-- _kalloc, for at most a page
-- ---------------------------------------------------------------------------

section Kalloc

variable {S : PageSource} {h h' : Heap} {R R' B : List Nat} {n ret : Nat}

/-- In a range that does not wrap. -/
theorem inRange_iff {c m x : Nat} (hfit : c + m ≤ wordSize) (hx : x < wordSize) :
    InRange wordSize x (c, m) ↔ c ≤ x ∧ x < c + m := by
  simp only [InRange]
  unfold wordSize at *
  omega

/-- The chunks of a divided heap. -/
theorem Divided.chunks (hd : Divided h R B) : Chunks h (h.staged :: (R ++ B)) where
  pos c hc := (hd.sound hc).pos
  fits c hc := (hd.sound hc).fits
  units c hc := by
    have hun : (sizeofChunk + h.size c) % sizeofChunk = 0 := (hd.sound hc).units
    unfold sizeofChunk at *
    omega
  apart := by
    have hap := hd.parts.apart
    rw [Apart, List.pairwise_map] at hap
    refine List.Pairwise.imp_of_mem (fun {c d} hc hd' hcd => ?_) hap
    have hfc : c + h.len c ≤ wordSize := (hd.sound hc).fits
    have hfd : d + h.len d ≤ wordSize := (hd.sound hd').fits
    have hlc := h.len_pos c
    have hld := h.len_pos d
    by_contra hover
    -- the later of the two starts is in both
    refine hcd (max c d) (by omega) ⟨?_, ?_⟩
    · exact (inRange_iff hfc (by omega)).mpr (by omega)
    · exact (inRange_iff hfd (by omega)).mpr (by omega)

/-- The chunks a request may come from: the ring, and the staged page where the ring has
nothing that is large enough. -/
def pool (h : Heap) (R : List Nat) (n : Nat) : List Nat :=
  if ∃ c ∈ R, n ≤ h.size c then R else h.staged :: R

/-- **A request that is met without loss**: the block at `ret` has `n` bytes, the ring covers
what `P` did without the block, and all chunks of `P` but the one that the block is from are on
the ring as before. -/
def Allotted (h : Heap) (P B : List Nat) (n ret : Nat) (h' : Heap) : Prop :=
  ∃ R', OnRing h' R' ∧ Divided h' R' (ret :: B) ∧ h'.size ret = n ∧
    cover h'.len R' = cover h.len P \ Set.Ico ret (ret + h'.len ret) ∧
    ∃ x ∈ P, Set.Ico ret (ret + h'.len ret) ⊆ Set.Ico x (x + h.len x) ∧
      ∀ c ∈ P, c ≠ x → c ∈ R' ∧ h'.size c = h.size c

/-- What is allotted does not depend on the order of the pool. -/
theorem allotted_perm {P P' : List Nat} (hp : P.Perm P') (ha : Allotted h P B n ret h') :
    Allotted h P' B n ret h' := by
  obtain ⟨R', hring, hd, hret, hcov, x, hx, hsub, hrest⟩ := ha
  exact ⟨R', hring, hd, hret, hcov.trans (by rw [cover_perm hp]), x, hp.mem_iff.mp hx, hsub,
    fun c hc => hrest c (hp.mem_iff.mpr hc)⟩

/-- The block is a whole chunk, and all others stay. -/
theorem allotted_whole (hc : Chunks h (ret :: R')) (hring : OnRing h' R')
    (hd : Divided h' R' (ret :: B)) (hret : h.size ret = n)
    (hsame : ∀ c ∈ ret :: R', h'.size c = h.size c) : Allotted h (ret :: R') B n ret h' := by
  have hlen : ∀ c ∈ ret :: R', h'.len c = h.len c := fun c hm => by
    rw [Heap.len, Heap.len, hsame c hm]
  have hself := hlen ret (List.mem_cons_self ..)
  refine ⟨R', hring, hd, (hsame _ (List.mem_cons_self ..)).trans hret, ?_, ret,
    List.mem_cons_self .., ?_, fun c hm hne => ?_⟩
  · rw [hself, cover_congr fun c hm => hlen c (List.mem_cons_of_mem _ hm), cover_tail hc.apart]
  · rw [hself]
  · exact ⟨(List.mem_cons.mp hm).resolve_left hne, hsame c hm⟩

/-- The block is the upper end of the chunk `x`, and all others stay. -/
theorem allotted_part {x : Nat} {P : List Nat} (hc : Chunks h P) (hx : x ∈ P)
    (hret : ret = x + (h.size x - n)) (hroom : n + sizeofChunk ≤ h.size x) (hring : OnRing h' P)
    (hd : Divided h' P (ret :: B)) (hxsize : h'.size x = h.size x - (n + sizeofChunk))
    (hretsize : h'.size ret = n) (hsame : ∀ c ∈ P, c ≠ x → h'.size c = h.size c) :
    Allotted h P B n ret h' := by
  have hlx : h.len x = sizeofChunk + h.size x := rfl
  have hlx' : h'.len x = sizeofChunk + (h.size x - (n + sizeofChunk)) := by rw [Heap.len, hxsize]
  have hlr : h'.len ret = sizeofChunk + n := by rw [Heap.len, hretsize]
  have hlow : x + h'.len x = ret := by omega
  have hhigh : ret + h'.len ret = x + h.len x := by omega
  have hperm := List.perm_cons_erase hx
  refine ⟨P, hring, hd, hretsize, ?_, x, hx, ?_, fun c hm hne => ⟨hm, hsame c hm hne⟩⟩
  · have hnot : x ∉ P.erase x := hc.nodup.not_mem_erase
    have hrest : ∀ c ∈ P.erase x, h'.len c = h.len c := fun c hm => by
      have hcx : c ≠ x := fun heq => hnot (heq ▸ hm)
      rw [Heap.len, Heap.len, hsame c (List.mem_of_mem_erase hm) hcx]
    have hle : h'.len x ≤ h.len x := by omega
    have hcut := cover_cut (hc.perm hperm).apart hle hrest
    rw [cover_perm hperm, cover_perm hperm, hcut, hlow, hhigh]
  · rw [hhigh]
    exact Set.Ico_subset_Ico_left (by omega)

/-- A larger chunk is divided, whatever chunk is in hand. -/
theorem divide_allots {P : List Nat} (hd : Divided h P B) (hring : OnRing h P) (hmem : h.head ∈ P)
    (hmul : n % sizeofChunk = 0) (hlt : n < h.size h.head) (prev : Nat) :
    ∃ ret h', take prev n h = some (ret + sizeofChunk, h') ∧ Allotted h P B n ret h' := by
  have hchunks : Chunks h P :=
    hd.chunks.sublist ((List.sublist_append_left ..).trans (List.sublist_cons_self ..))
  obtain ⟨ret, h', hret, htake, hring', hd', hxsize, hretsize, hnew, hsame⟩ :=
    took_divide hd hring hmem hmul hlt prev
  have hroom : n + sizeofChunk ≤ h.size h.head := by
    have hun := hchunks.units h.head hmem
    unfold sizeofChunk at *
    omega
  refine ⟨ret, h', htake, allotted_part hchunks hmem hret hroom hring' hd' hxsize hretsize
    fun d hm hne => hsame d hne ?_⟩
  rintro rfl
  exact hnew (List.mem_cons_of_mem _ (List.mem_append_left _ hm))

/-- The end of `_kalloc`, where the chunk before the one at `head` is the one in hand. -/
theorem take_allots {t : List Nat} {c prev : Nat} (hd : Divided h (c :: t) B)
    (hring : OnRing h (c :: t)) (hmul : n % sizeofChunk = 0) (hfit : n ≤ h.size h.head)
    (hprev : Before h.next c t prev h.head) :
    ∃ ret h', take prev n h = some (ret + sizeofChunk, h') ∧ Allotted h (c :: t) B n ret h' := by
  have hchunks : Chunks h (c :: t) :=
    hd.chunks.sublist ((List.sublist_append_left ..).trans (List.sublist_cons_self ..))
  by_cases heq : h.size h.head = n
  · rcases hprev with ⟨rfl, rfl⟩ | ⟨t', hr', hperm⟩
    · obtain rfl : h.head = c := by simpa using hring.2
      obtain ⟨h', htake, hring', hd', hsame⟩ := took_only hd heq
      exact ⟨_, h', htake, allotted_whole hchunks hring' hd' heq fun c _ => by rw [hsame]⟩
    · have hcut : IsRing h.next prev ([] ++ h.head :: t') := hr'
      obtain ⟨h', htake, hring', hd', hsame⟩ := took_exact hd heq hcut hperm.symm
      have hswap : (c :: t).Perm (h.head :: prev :: t') := hperm.symm.trans (List.Perm.swap ..)
      refine ⟨_, h', htake, allotted_perm hswap.symm ?_⟩
      exact allotted_whole (hchunks.perm hswap) hring' hd' heq fun c _ => by rw [hsame]
  · exact divide_allots hd hring hring.2 hmul (by omega) prev

/-- It depends on the sizes of the pool only. -/
theorem allotted_congr {h₁ : Heap} {P : List Nat} (hsame : ∀ c ∈ P, h₁.size c = h.size c)
    (ha : Allotted h₁ P B n ret h') : Allotted h P B n ret h' := by
  have hlen : ∀ c ∈ P, h₁.len c = h.len c := fun c hm => by rw [Heap.len, Heap.len, hsame c hm]
  obtain ⟨R', hring, hd, hret, hcov, x, hx, hsub, hrest⟩ := ha
  refine ⟨R', hring, hd, hret, ?_, x, hx, ?_, ?_⟩
  · rw [hcov, cover_congr hlen]
  · rwa [hlen x hx] at hsub
  · intro c hm hne
    rw [← hsame c hm]
    exact hrest c hm hne

/-- An exact match in the staged page: the chunk before it, which is not the one in hand, is
no longer on the ring. -/
theorem staged_lost {t : List Nat} {cur prev : Nat} (hd : Divided h (cur :: h.head :: t) B)
    (hr : IsRing h.next cur (h.head :: t)) (hsize : h.size h.head = n) (hprev : prev ∈ t) :
    ∃ h', take prev n h = some (h.head + sizeofChunk, h') ∧
      ∀ h₀ P, cur ∈ P → h.head ∈ P → ¬ Allotted h₀ P B n h.head h' := by
  obtain ⟨l₁, l₂, rfl⟩ := List.append_of_mem hprev
  have hrot : IsRing h.next prev ((l₂ ++ [cur]) ++ h.head :: l₁) := by
    have hrot' : IsRing h.next prev (l₂ ++ cur :: (h.head :: l₁)) := isRing_rotate hr
    simpa using hrot'
  have hperm : (cur :: h.head :: (l₁ ++ prev :: l₂)).Perm
      (prev :: ((l₂ ++ [cur]) ++ h.head :: l₁)) := by
    have hswap : (cur :: h.head :: l₁ ++ prev :: l₂).Perm (prev :: l₂ ++ cur :: h.head :: l₁) :=
      List.perm_append_comm
    simpa using hswap
  obtain ⟨h', htake, hring', hd', -⟩ := took_exact hd hsize hrot hperm
  refine ⟨h', htake, ?_⟩
  intro h₀ P hcur hhead
  rintro ⟨R', hR', -, -, -, x, -, -, hrest⟩
  have hnull : h'.head ≠ NULL := by
    have hpos := (hd'.chunks.pos h'.head (List.mem_cons_of_mem _ (List.mem_append_left _ hring'.2)))
    exact hpos.ne'
  have hnd := hr.nodup
  have hgone : ∀ c ∈ P, c ≠ x → c ∈ prev :: l₁ := fun c hm hne =>
    (hR'.mem_iff hring' hnull c).mp (hrest c hm hne).1
  by_cases hx : cur = x
  · have hin := hgone h.head hhead fun heq => by simp [hx, heq] at hnd
    simp only [List.nodup_cons, List.mem_cons, List.mem_append] at hnd hin
    tauto
  · have hin := hgone cur hcur hx
    simp only [List.nodup_cons, List.mem_cons, List.mem_append] at hnd hin
    tauto

/-- The staged page on the ring, behind the chunk after `head`. -/
theorem addStaged_behind {t : List Nat} {v : Nat} (hv : S.pick pageSize h.pages = some v)
    (hr : IsRing h.next h.head t) (hd : Divided h (h.head :: t) B) :
    ∃ t' h₁, addStaged S (h.setHead (h.next h.head)) = some h₁ ∧
      IsRing h₁.next (h.next h.head) (h₁.head :: t') ∧
      Divided h₁ (h.next h.head :: h₁.head :: t') B ∧ h₁.size h₁.head = adjPageSize ∧
      (h.next h.head :: t').Perm (h.head :: t) ∧ h₁.head = h.staged ∧
      ∀ c ∈ h.next h.head :: h₁.head :: t', h₁.size c = h.size c := by
  generalize hcur : h.next h.head = cur
  obtain ⟨t', hr', hperm⟩ := hr.start_at (hcur ▸ hr.next_mem (List.mem_cons_self ..))
  have hd' : Divided (h.setHead cur) (cur :: t') B :=
    hd.congr (by simp) (by simp) (fun c _ => by simp) (hperm.append_right B).subperm
  obtain ⟨h₁, hadd, hhead, hring, hdiv, hst, hsame⟩ := addStaged_spec (h := h.setHead cur) hv hd' hr'
  simp only [Heap.setHead_head, Heap.setHead_staged, Heap.setHead_size] at hhead hring hdiv hst hsame
  rw [← hhead] at hring hdiv hst
  refine ⟨t', h₁, hadd, hring, hdiv, hst, hperm, hhead, fun c hm => hsame c ?_⟩
  rw [hhead] at hm
  simp only [List.mem_cons, List.mem_append] at hm ⊢
  tauto

/-- The staged page meets the request, and nothing is lost: the page is larger, or the chunk in
hand is the one that the page was put behind. -/
theorem staged_allots {t : List Nat} {v : Nat} (hv : S.pick pageSize h.pages = some v)
    (hr : IsRing h.next h.head t) (hd : Divided h (h.head :: t) B) (hmul : n % sizeofChunk = 0)
    (hle : n ≤ adjPageSize) (hkept : n = adjPageSize → t = []) :
    ∃ ret h', (addStaged S (h.setHead (h.next h.head))).bind (take h.head n) =
        some (ret + sizeofChunk, h') ∧ Allotted h (h.staged :: h.head :: t) B n ret h' := by
  obtain ⟨t', h₁, hadd, hring, hdiv, hst, hperm, hhead, hsame⟩ := addStaged_behind hv hr hd
  have hP : (h.next h.head :: h₁.head :: t').Perm (h.staged :: h.head :: t) := by
    rw [hhead]
    exact (List.Perm.swap ..).trans (hperm.cons _)
  have hor : OnRing h₁ (h.next h.head :: h₁.head :: t') := ⟨hring, by simp⟩
  have htaken : ∃ ret h', take h.head n h₁ = some (ret + sizeofChunk, h') ∧
      Allotted h₁ (h.next h.head :: h₁.head :: t') B n ret h' := by
    by_cases hexact : n = adjPageSize
    · have hself : h.next h.head = h.head := by rw [hr.next_head, hkept hexact, List.headD_nil]
      refine take_allots hdiv hor hmul (hst.trans hexact.symm).ge ?_
      rw [hself] at hring ⊢
      exact .inr ⟨t', hring, List.Perm.refl _⟩
    · exact divide_allots hdiv hor (by simp) hmul (by omega) h.head
  obtain ⟨ret, h', htake, ha⟩ := htaken
  refine ⟨ret, h', ?_, allotted_perm hP (allotted_congr hsame ha)⟩
  rw [hadd, Option.bind_some, htake]

/-- A whole page's payload, from the staged page on a ring of at least two: the chunk after
`head` is lost. -/
theorem staged_loses {t : List Nat} {v : Nat} (hv : S.pick pageSize h.pages = some v)
    (hr : IsRing h.next h.head t) (hd : Divided h (h.head :: t) B) (ht : t ≠ []) :
    ∃ ret h', (addStaged S (h.setHead (h.next h.head))).bind (take h.head adjPageSize) =
        some (ret + sizeofChunk, h') ∧
      ¬ Allotted h (h.staged :: h.head :: t) B adjPageSize ret h' := by
  obtain ⟨t', h₁, hadd, hring, hdiv, hst, hperm, hhead, -⟩ := addStaged_behind hv hr hd
  have hne : h.head ≠ h.next h.head := by
    obtain ⟨d, t₁, rfl⟩ := List.exists_cons_of_ne_nil ht
    have hnext : h.next h.head = d := hr.next_head
    intro hself
    refine (List.nodup_cons.mp hr.nodup).1 ?_
    rw [hself, hnext]
    exact List.mem_cons_self ..
  have hmem : h.head ∈ t' :=
    (List.mem_cons.mp (hperm.mem_iff.mpr (List.mem_cons_self ..))).resolve_left hne
  obtain ⟨h', htake, hlost⟩ := staged_lost hdiv hring hst hmem
  refine ⟨h₁.head, h', by rw [hadd, Option.bind_some, htake], hlost h _ ?_ ?_⟩
  · exact List.mem_cons_of_mem _ (hr.next_mem (List.mem_cons_self ..))
  · rw [hhead]
    exact List.mem_cons_self ..

/-- **Small requests lose no free memory**, except one of a whole page's payload that no chunk
is large enough for, on a ring of at least two. -/
theorem kalloc_covers_iff {size : Nat} (junk : Nat) (hring : OnRing h R) (hd : Divided h R B)
    (hsize : size ≤ pageSize - sizeofChunk)
    (hpick : (∀ c ∈ R, h.size c < align size sizeofChunk) → (S.pick pageSize h.pages).isSome) :
    ∃ fuel ret h', kalloc S junk size h fuel = some (ret + sizeofChunk, h') ∧
      (Allotted h (pool h R (align size sizeofChunk)) B (align size sizeofChunk) ret h' ↔
        ¬ (align size sizeofChunk = adjPageSize ∧ (∀ c ∈ R, h.size c < align size sizeofChunk) ∧
          2 ≤ R.length)) := by
  obtain ⟨hmul, hle⟩ := small_request hsize
  obtain ⟨n, hn⟩ : ∃ n, align size sizeofChunk = n := ⟨_, rfl⟩
  rw [hn] at hmul hle hpick ⊢
  obtain ⟨fuel, hcase⟩ := kalloc_cases (S := S) junk hring hd hn hle
  refine ⟨fuel, ?_⟩
  rcases hcase with ⟨rfl, hcall⟩ |
    ⟨t, hr, hperm, hdh, ⟨prev, x, hx, hfit, hprev, hcall⟩ | ⟨hall, hcall⟩⟩
  · obtain ⟨v, hv⟩ := Option.isSome_iff_exists.mp (hpick (by simp))
    obtain ⟨h₁, honly, hhead, hr', hd', hst, hsame⟩ := onlyStaged_spec hv hd
    rw [honly, Option.bind_some, ← hhead] at hcall
    rw [← hhead] at hr' hd' hst
    obtain ⟨ret, h', htake, ha⟩ := take_allots hd' ⟨hr', List.mem_cons_self ..⟩ hmul
      (by omega) (.inl ⟨rfl, rfl⟩)
    refine ⟨ret, h', hcall.trans htake, iff_of_true ?_ (by simp)⟩
    rw [hhead] at ha
    have hpool : pool h [] n = [h.staged] := by simp [pool]
    rw [hpool]
    refine allotted_congr (fun c hm => hsame c ?_) ha
    rw [List.mem_singleton.mp hm]
    exact List.mem_cons_self ..
  · have hxR : x ∈ R := hperm.mem_iff.mp hx
    have hdx : Divided (h.setHead x) (h.head :: t) B :=
      hdh.congr (by simp) (by simp) (fun c _ => by simp) (List.Subperm.refl _)
    obtain ⟨ret, h', htake, ha⟩ := take_allots (h := h.setHead x) hdx ⟨hr, hx⟩ hmul hfit hprev
    refine ⟨ret, h', hcall.trans htake, iff_of_true ?_ fun hlost => ?_⟩
    · have hpool : pool h R n = R := if_pos ⟨x, hxR, hfit⟩
      rw [hpool]
      exact allotted_perm hperm (allotted_congr (fun c _ => by simp) ha)
    · have hsmall := hlost.2.1 x hxR
      omega
  · have hallR : ∀ c ∈ R, h.size c < n := fun c hm => hall c (hperm.mem_iff.mpr hm)
    obtain ⟨v, hv⟩ := Option.isSome_iff_exists.mp (hpick hallR)
    have hpool : pool h R n = h.staged :: R := if_neg fun ⟨c, hm, hfit⟩ => by
      have hlt := hallR c hm
      omega
    have hpermP := hperm.cons h.staged
    rw [hpool]
    by_cases hbad : n = adjPageSize ∧ t ≠ []
    · obtain ⟨rfl, ht⟩ := hbad
      obtain ⟨ret, h', htake, hlost⟩ := staged_loses hv hr hdh ht
      refine ⟨ret, h', hcall.trans htake, iff_of_false ?_ fun hkept => hkept ⟨rfl, hallR, ?_⟩⟩
      · exact fun ha => hlost (allotted_perm hpermP.symm ha)
      · have hpos : 0 < t.length := List.length_pos_iff.mpr ht
        rw [← hperm.length_eq, List.length_cons]
        omega
    · obtain ⟨ret, h', htake, ha⟩ := staged_allots hv hr hdh hmul hle fun hn =>
        not_not.mp fun ht => hbad ⟨hn, ht⟩
      refine ⟨ret, h', hcall.trans htake, iff_of_true (allotted_perm hpermP ha) ?_⟩
      rintro ⟨hn, -, htwo⟩
      refine hbad ⟨hn, ?_⟩
      rintro rfl
      rw [← hperm.length_eq] at htwo
      simp at htwo

end Kalloc

section Example

/-- The heap as `setup_kernel_memory` leaves it. -/
def startHeap : Heap := setupKernelMemory fun _ => ⟨0, 0⟩

/-- The start heap is one free chunk. -/
theorem startHeap_inv : OnRing startHeap [kmemStart] ∧ Divided startHeap [kmemStart] [] :=
  ⟨(inv_start _).ring, (inv_start _).divided⟩

/-- The first allocation from the start heap. -/
theorem kalloc_covers_start :
    ∃ fuel ret h', kalloc .upward 0 100 startHeap fuel = some (ret + sizeofChunk, h') ∧
      (Allotted startHeap (pool startHeap [kmemStart] (align 100 sizeofChunk)) []
          (align 100 sizeofChunk) ret h' ↔
        ¬ (align 100 sizeofChunk = adjPageSize ∧
          (∀ c ∈ [kmemStart], startHeap.size c < align 100 sizeofChunk) ∧
          2 ≤ [kmemStart].length)) :=
  kalloc_covers_iff 0 startHeap_inv.1 startHeap_inv.2 (by decide) fun _ => by decide

/-- Two chunks of 16 bytes on the ring, and a page in stage. -/
def twoSmall : Heap :=
  ⟨0xA000, 0xB000, fun c => if c = 0xA000 then ⟨16, 0xA020⟩ else if c = 0xA020 then ⟨16, 0xA000⟩
    else ⟨adjPageSize, NULL⟩, 0, [0xB000, 0xA000]⟩

/-- Two small chunks in a ring. -/
theorem twoSmall_ring : IsRing twoSmall.next 0xA000 [0xA020] := ⟨by decide, rfl, rfl⟩

/-- These two are apart from each other. -/
theorem twoSmall_divided : Divided twoSmall [0xA000, 0xA020] [] := by
  have hfirst := (startPages.perm (List.Perm.swap ..)).divide (n := 4064) (by decide) (by decide)
    (by decide)
  have hsecond := (hfirst.perm (List.Perm.swap ..)).divide (n := 4032) (by decide) (by decide)
    (by decide)
  have hthree : Parts twoSmall.pages [(0xA020, 32), (0xA000, 32), (0xB000, 4096)] :=
    hsecond.sublist ((List.sublist_cons_self ..).cons_cons _)
  exact ⟨hthree.perm (by decide), rfl⟩

/-- A request of 4080 bytes, which neither chunk can hold: the chunk at `0xA020`, which the
page was put behind, is no longer on the ring. -/
theorem small_chunk_lost : OnRing twoSmall [0xA000, 0xA020] ∧
    Divided twoSmall [0xA000, 0xA020] [] ∧
    ∃ fuel ret h', kalloc .upward 0 4080 twoSmall fuel = some (ret + sizeofChunk, h') ∧
      ¬ Allotted twoSmall (pool twoSmall [0xA000, 0xA020] 4080) [] 4080 ret h' := by
  have hring : OnRing twoSmall [0xA000, 0xA020] := ⟨twoSmall_ring, by decide⟩
  refine ⟨hring, twoSmall_divided, ?_⟩
  have hpick : PageSource.upward.pick pageSize twoSmall.pages = some 0xFFFF800000001000 := by
    decide +kernel
  obtain ⟨ret, h', htake, hlost⟩ := staged_loses hpick twoSmall_ring twoSmall_divided (by simp)
  obtain ⟨fuel, ⟨hnil, -⟩ | ⟨t, -, hperm, -, ⟨prev, x, hx, hfit, -⟩ | ⟨-, hcall⟩⟩⟩ :=
    kalloc_cases (S := .upward) 0 hring twoSmall_divided (rfl : align 4080 sizeofChunk = 4080) le_rfl
  · cases hnil
  · have hmem := hperm.mem_iff.mp hx
    have hsmall : ∀ c ∈ [0xA000, 0xA020], twoSmall.size c < 4080 := by decide
    exact absurd hfit (Nat.not_le.mpr (hsmall x hmem))
  · exact ⟨fuel, ret, h', hcall.trans htake, hlost⟩

end Example

end Frosk.KernelHeap
