import Frosk.KernelHeap.Coverage

/-!
# Kernel heap: requests larger than a page

`kallocBig` puts new pages on the ring behind `head` and then meets the request from them. It
takes the link of the new chunk from the chunk after the one behind `head`, and on an exact
match it looks at `prev`, which it never set.

* `kalloc_large_iff` — when a large request is met and no free chunk is lost: on a ring of
  exactly one chunk, and with some of the new pages left over.
-/

namespace Frosk.KernelHeap

open Lib

variable {S : PageSource} {h h' : Heap} {R B : List Nat} {v n adj : Nat}

/-- Rounding up to whole pages that does not wrap. -/
theorem align_page {x : Nat} (h : x + 4095 < wordSize) :
    x ≤ align x pageSize ∧ align x pageSize < x + pageSize ∧ align x pageSize % pageSize = 0 := by
  unfold align pageSize wordSize at *
  split <;> omega

/-- The pages that `alloc_pgs` gives hold no chunk of the heap. -/
theorem Divided.away (hd : Divided h R B) (hpick : S.pick adj h.pages = some v) {c : Nat}
    (hc : c ∈ h.staged :: (R ++ B)) : c < v ∨ v + adj ≤ c := by
  by_contra hin
  have hlt := Parts.start_lt hd.parts hc
  have hpage : c - c % pageSize ∈ h.pages :=
    hd.parts.covered _ (List.mem_map_of_mem hc) c hlt
      (inRange_start hlt (Nat.lt_of_lt_of_le (by decide) (Nat.le_add_right sizeofChunk _)))
  have hpaged := S.paged hpick
  refine S.fresh hpick ((c - v) / pageSize) ?_ ?_
  · have hdiv : (c - v) / pageSize * pageSize ≤ c - v := Nat.div_mul_le_self ..
    omega
  · have heq : v + (c - v) / pageSize * pageSize = c - c % pageSize := by
      unfold pageSize at *
      omega
    rw [heq]
    exact hpage

/-- The new pages as a chunk on the ring, before the request is met. -/
def spliced (h : Heap) (v adj : Nat) : Heap :=
  ((((h.addPages v adj).setSize v (adj - sizeofChunk)).setNext v
    (h.next (h.next h.head))).setNext h.head v).setHead v

/-- The branch for large requests takes a whole region and links it in at the head. -/
theorem kallocBig_eq (hpick : S.pick (align ((n + sizeofChunk) % wordSize) pageSize) h.pages = some v)
    (hhead : h.head ≠ NULL) (hn : n + sizeofChunk + 4095 < wordSize) (junk : Nat) :
    kallocBig S junk n h = take junk n (spliced h v (align (n + sizeofChunk) pageSize)) := by
  have hmod : (n + sizeofChunk) % wordSize = n + sizeofChunk := Nat.mod_eq_of_lt (by omega)
  rw [hmod] at hpick
  obtain ⟨hge, hlt, _⟩ := align_page (x := n + sizeofChunk) (by omega)
  have hword : align (n + sizeofChunk) pageSize < wordSize := by
    unfold align wordSize pageSize at *
    split <;> omega
  have hwsub : wsub (align (n + sizeofChunk) pageSize) sizeofChunk =
      align (n + sizeofChunk) pageSize - sizeofChunk := wsub_eq (by omega) hword
  rw [kallocBig, hmod, hpick, Option.bind_some]
  have hsame : (h.addPages v (align (n + sizeofChunk) pageSize)).next = h.next := rfl
  have hheads : (h.addPages v (align (n + sizeofChunk) pageSize)).head = h.head := rfl
  simp only [if_neg hhead, hwsub, Heap.setSize_head, Heap.setSize_next, Heap.setNext_head, hsame,
    hheads, spliced]

section Spliced

theorem spliced_head : (spliced h v adj).head = v := rfl

/-- The links after a region is linked in. -/
theorem spliced_next (c : Nat) : (spliced h v adj).next c =
    if c = h.head then v else if c = v then h.next (h.next h.head) else h.next c := by
  rw [spliced, Heap.setHead_next, Heap.setNext_next, Heap.setNext_next, Heap.setSize_next]
  rfl

/-- The sizes after a region is linked in. -/
theorem spliced_size (c : Nat) : (spliced h v adj).size c =
    if c = v then adj - sizeofChunk else h.size c := by
  rw [spliced, Heap.setHead_size, Heap.setNext_size, Heap.setNext_size, Heap.setSize_size]
  rfl

/-- On a ring of one chunk the new one goes behind it. -/
theorem spliced_ring_one (hr : IsRing h.next h.head []) (hv : v ≠ h.head) :
    IsRing (spliced h v adj).next h.head [v] := by
  have hself : h.next h.head = h.head := hr.next_head
  refine isRing_insert hr (by simpa using hv) ?_ ?_ (by simp)
  · rw [spliced_next, if_pos rfl]
  · rw [spliced_next, if_neg hv, if_pos rfl, hself, hself]

/-- On a longer ring it takes the place of the chunk behind `head`. -/
theorem spliced_ring_more {a : Nat} {t : List Nat} (hr : IsRing h.next h.head (a :: t))
    (hv : v ∉ h.head :: a :: t) : IsRing (spliced h v adj).next h.head (v :: t) := by
  have hnext : h.next h.head = a := hr.next_head
  simp only [List.mem_cons, not_or] at hv
  refine isRing_replace hr (by simp [hv.1, hv.2.2]) ?_ ?_ fun y hy => ?_
  · rw [spliced_next, if_pos rfl]
  · rw [spliced_next, if_neg hv.1, if_pos rfl, hnext]
  · have hyh : y ≠ h.head := by
      rintro rfl
      exact (List.nodup_cons.mp hr.nodup).1 (List.mem_cons_of_mem _ hy)
    have hyv : y ≠ v := fun heq => hv.2.2 (heq ▸ hy)
    rw [spliced_next, if_neg hyh, if_neg hyv]

/-- Where some of the pages are left over, `prev` is not looked at. -/
theorem spliced_take (hroom : n + sizeofChunk ≤ adj - sizeofChunk) :
    ∃ h', (∀ junk, take junk n (spliced h v adj) =
        some (v + (adj - sizeofChunk - n) + sizeofChunk, h')) ∧
      h'.head = v ∧ h'.next = (spliced h v adj).next ∧
      h'.size v = adj - sizeofChunk - (n + sizeofChunk) ∧
      h'.size (v + (adj - sizeofChunk - n)) = n ∧
      ∀ c, c ≠ v → c ≠ v + (adj - sizeofChunk - n) → h'.size c = h.size c := by
  have hpos : 0 < sizeofChunk := by decide
  have hv : (spliced h v adj).size v = adj - sizeofChunk := by rw [spliced_size, if_pos rfl]
  have hne : v ≠ v + (adj - sizeofChunk - n) := by omega
  have htake := take_larger spliced_head (hv.symm ▸ hroom)
  simp only [hv] at htake
  refine ⟨_, htake, ?_, ?_, ?_, ?_, ?_⟩
  · rw [Heap.subFree_head, Heap.subFree_head, Heap.setSize_head, Heap.setSize_head, spliced_head]
  · rw [Heap.subFree_next, Heap.subFree_next, Heap.setSize_next, Heap.setSize_next]
  · rw [Heap.subFree_size, Heap.subFree_size, Heap.setSize_size, if_neg hne, Heap.setSize_size,
      if_pos rfl]
  · rw [Heap.subFree_size, Heap.subFree_size, Heap.setSize_size, if_pos rfl]
  · intro c hcv hcret
    rw [Heap.subFree_size, Heap.subFree_size, Heap.setSize_size, if_neg hcret, Heap.setSize_size,
      if_neg hcv, spliced_size, if_neg hcv]

/-- On an exact match, what becomes of `head` depends on what `prev` happens to hold. -/
theorem spliced_exact (hexact : adj - sizeofChunk = n) (hv : v ≠ h.head)
    (hnext : h.next (h.next h.head) ≠ NULL) (r : Nat × Heap) :
    ¬ ∀ junk, take junk n (spliced h v adj) = some r := by
  intro hall
  have hsize : (spliced h v adj).size (spliced h v adj).head = n := by
    rw [spliced_head, spliced_size, if_pos rfl, hexact]
  have hlink : (spliced h v adj).next v = h.next (h.next h.head) := by
    rw [spliced_next, if_neg hv, if_pos rfl]
  have hsame := hall v
  have hother := hall (v + 1)
  rw [take, if_pos hsize, spliced_head, if_pos rfl] at hsame
  rw [take, if_pos hsize, spliced_head, if_neg (Nat.succ_ne_self v), hlink] at hother
  have hheads := congrArg (fun x : Nat × Heap => x.2.head)
    (Option.some.inj (hother.trans hsame.symm))
  simp only [Heap.subFree_head, Heap.setNext_head, Heap.setHead_head] at hheads
  exact hnext hheads

end Spliced

/-- **A large request that is met without loss**: the block at `ret` has `n` bytes and lies in
the new pages; every chunk is on the ring as before, and so is what is left of the pages. -/
def Grown (h : Heap) (R : List Nat) (v adj n ret : Nat) (h' : Heap) : Prop :=
  h'.size ret = n ∧ v ≤ ret ∧ ret + h'.len ret ≤ v + adj ∧
    ∃ R', OnRing h' R' ∧ (∀ c ∈ R, h'.size c = h.size c) ∧
      if h'.len ret = adj then R'.Perm R
      else R'.Perm (v :: R) ∧ v + h'.len v = ret ∧ ret + h'.len ret = v + adj

/-- What is grown does not depend on the order of the ring. -/
theorem grown_perm {R' : List Nat} {ret : Nat} (hp : R.Perm R') (hg : Grown h R v adj n ret h') :
    Grown h R' v adj n ret h' := by
  obtain ⟨hsize, hlow, hhigh, R₁, hring, hsame, hperm⟩ := hg
  refine ⟨hsize, hlow, hhigh, R₁, hring, fun c hc => hsame c (hp.mem_iff.mpr hc), ?_⟩
  split_ifs at hperm ⊢
  · exact hperm.trans hp
  · exact ⟨hperm.1.trans (hp.cons v), hperm.2⟩

/-- On a ring of one chunk, with pages left over. -/
theorem one_grown (hr : IsRing h.next h.head []) (hd : Divided h [h.head] B)
    (hpick : S.pick adj h.pages = some v) (hroom : n + sizeofChunk ≤ adj - sizeofChunk)
    (hsmall : sizeofChunk ≤ adj) :
    ∃ ret h', (∀ junk, take junk n (spliced h v adj) = some (ret + sizeofChunk, h')) ∧
      Grown h [h.head] v adj n ret h' := by
  have haway := hd.away hpick (c := h.head) (by simp)
  have hpos : 0 < sizeofChunk := by decide
  obtain ⟨h', htake, hhead, hnext, hsizev, hsizeret, hsame⟩ := spliced_take (h := h) (v := v) hroom
  have hlenret : h'.len (v + (adj - sizeofChunk - n)) = sizeofChunk + n := by
    rw [Heap.len, hsizeret]
  have hlenv : h'.len v = sizeofChunk + (adj - sizeofChunk - (n + sizeofChunk)) := by
    rw [Heap.len, hsizev]
  have hpart : ¬ sizeofChunk + n = adj := by omega
  refine ⟨_, h', htake, hsizeret, by omega, by omega, [h.head, v], ⟨?_, ?_⟩, ?_, ?_⟩
  · rw [hnext]
    exact spliced_ring_one hr (by omega)
  · simp [hhead]
  · intro c hc
    obtain rfl : c = h.head := by simpa using hc
    exact hsame _ (by omega) (by omega)
  · rw [hlenret, if_neg hpart, hlenv]
    exact ⟨List.Perm.swap .., by omega, by omega⟩

/-- On a longer ring the chunk behind `head` is lost. -/
theorem more_not_grown {a : Nat} {t : List Nat} (hr : IsRing h.next h.head (a :: t))
    (hd : Divided h (h.head :: a :: t) B) (hpick : S.pick adj h.pages = some v)
    (hroom : n + sizeofChunk ≤ adj - sizeofChunk) {r : Nat × Heap}
    (hall : ∀ junk, take junk n (spliced h v adj) = some r) (ret : Nat) :
    ¬ Grown h (h.head :: a :: t) v adj n ret r.2 := by
  have hpos : 0 < sizeofChunk := by decide
  obtain ⟨h', htake, hhead, hnext, -⟩ := spliced_take (h := h) (v := v) hroom
  have hr' : r.2 = h' := congrArg Prod.snd (Option.some.inj ((hall 0).symm.trans (htake 0)))
  have hv : v ∉ h.head :: a :: t := fun hm => by
    have haway := hd.away hpick (List.mem_cons_of_mem _ (List.mem_append_left B hm))
    omega
  rw [hr']
  rintro ⟨-, -, -, R', hring, -, hperm⟩
  have hnew : OnRing h' (h.head :: v :: t) :=
    ⟨hnext ▸ spliced_ring_more hr hv, by simp [hhead]⟩
  have ha : a ∈ R' := by
    split_ifs at hperm
    · exact hperm.mem_iff.mpr (by simp)
    · exact hperm.1.mem_iff.mpr (by simp)
  have hnull : h'.head ≠ NULL := by
    rw [hhead]
    exact (S.pos hpick).ne'
  have hin := (hring.mem_iff hnew hnull a).mp ha
  have hnd := hr.nodup
  simp only [List.nodup_cons, List.mem_cons, not_or] at hin hnd hv
  obtain rfl | rfl | hin := hin
  · exact hnd.1.1 rfl
  · exact hv.2.1 rfl
  · exact hnd.2.1 hin

/-- **Large requests lose no free memory** and look at nothing that was not set exactly when
the ring has one chunk and the request with its header is no whole number of pages. -/
theorem kalloc_large_iff {size : Nat} (hring : OnRing h R) (hd : Divided h R B)
    (hround : size + 15 < wordSize) (hbig : adjPageSize < align size sizeofChunk)
    (hwrap : align size sizeofChunk + sizeofChunk + 4095 < wordSize)
    (hpick : S.pick (align (align size sizeofChunk + sizeofChunk) pageSize) h.pages = some v) :
    (∃ ret h', (∀ junk fuel, kalloc S junk size h fuel = some (ret + sizeofChunk, h')) ∧
        Grown h R v (align (align size sizeofChunk + sizeofChunk) pageSize)
          (align size sizeofChunk) ret h') ↔
      R.length = 1 ∧ (align size sizeofChunk + sizeofChunk) % pageSize ≠ 0 := by
  obtain ⟨_, _, hmul⟩ := align_sixteen hround
  obtain ⟨n, hn⟩ : ∃ n, align size sizeofChunk = n := ⟨_, rfl⟩
  have hmul : n % sizeofChunk = 0 := hn ▸ hmul
  rw [hn] at hbig hwrap hpick ⊢
  obtain ⟨hge, hlt, hpaged⟩ := align_page hwrap
  have hmod : (n + sizeofChunk) % wordSize = n + sizeofChunk := Nat.mod_eq_of_lt (by omega)
  have hcall : ∀ junk fuel, kalloc S junk size h fuel = kallocBig S junk n h := fun junk fuel => by
    rw [kalloc, hn]
    exact if_pos hbig
  simp only [hcall]
  cases R with
  | nil =>
    have hnull : h.head = NULL := hring
    have hnone : kallocBig S 0 n h = none := by
      rw [kallocBig, hmod, hpick, Option.bind_some, if_pos hnull]
    refine iff_of_false ?_ (by simp)
    rintro ⟨ret, h', hall, -⟩
    have hsome := hall 0 0
    rw [hnone] at hsome
    cases hsome
  | cons c t₀ =>
    obtain ⟨t, hr, hperm, hhead, hdh⟩ := hring.from_head hd
    have hbigcall := kallocBig_eq (hmod.symm ▸ hpick) hhead hwrap
    simp only [hbigcall]
    generalize align (n + sizeofChunk) pageSize = adj at hge hlt hpaged hpick
    have haway := hdh.away hpick (c := h.head) (by simp)
    have hsome : ∀ {ret h'}, (∀ junk (_ : Nat), take junk n (spliced h v adj) =
        some (ret + sizeofChunk, h')) → ∀ junk, take junk n (spliced h v adj) =
        some (ret + sizeofChunk, h') := fun hall junk => hall junk 0
    by_cases hexact : (n + sizeofChunk) % pageSize = 0
    · refine iff_of_false ?_ fun hcond => hcond.2 hexact
      rintro ⟨ret, h', hall, -⟩
      have hnull : h.next (h.next h.head) ≠ NULL :=
        (hdh.chunks.pos _ (List.mem_cons_of_mem _ (List.mem_append_left _
          (hr.next_mem (hr.next_mem (List.mem_cons_self ..)))))).ne'
      have hwhole : adj - sizeofChunk = n := by
        unfold pageSize sizeofChunk at *
        omega
      have hpage : 0 < adj := by omega
      exact spliced_exact hwhole (by omega) hnull _ (hsome hall)
    · have hroom : n + sizeofChunk ≤ adj - sizeofChunk := by
        unfold pageSize sizeofChunk at *
        omega
      cases t with
      | nil =>
        obtain ⟨rfl, rfl⟩ : c = h.head ∧ t₀ = [] := by simpa using hperm.symm
        obtain ⟨ret, h', hall, hgrown⟩ := one_grown hr hdh hpick hroom (by omega)
        exact iff_of_true ⟨ret, h', fun junk _ => hall junk, hgrown⟩ ⟨rfl, hexact⟩
      | cons a t =>
        refine iff_of_false ?_ fun hcond => ?_
        · rintro ⟨ret, h', hall, hgrown⟩
          exact more_not_grown hr hdh hpick hroom (hsome hall) ret (grown_perm hperm.symm hgrown)
        · have hlen := hperm.length_eq.trans hcond.1
          simp at hlen

section Example

/-- The pages for up to two pages of memory, right after `setup_kernel_memory`. -/
theorem start_pick : PageSource.upward.pick 8192 startHeap.pages = some 0xFFFF800000001000 := by
  decide +kernel

/-- A large request to the start heap. -/
theorem kalloc_large_start :
    (∃ ret h', (∀ junk fuel, kalloc .upward junk 5000 startHeap fuel =
        some (ret + sizeofChunk, h')) ∧
        Grown startHeap [kmemStart] 0xFFFF800000001000 (align (align 5000 sizeofChunk + sizeofChunk)
          pageSize) (align 5000 sizeofChunk) ret h') ↔
      [kmemStart].length = 1 ∧ (align 5000 sizeofChunk + sizeofChunk) % pageSize ≠ 0 :=
  kalloc_large_iff startHeap_inv.1 startHeap_inv.2 (by decide) (by decide) (by decide) start_pick

/-- A request that fills two pages with its header: there is no one result. -/
theorem prev_not_set : ¬ ∃ ret h', (∀ junk fuel, kalloc .upward junk 8176 startHeap fuel =
    some (ret + sizeofChunk, h')) ∧
      Grown startHeap [kmemStart] 0xFFFF800000001000 8192 8176 ret h' := by
  rintro ⟨ret, h', hall, -⟩
  have hhead : startHeap.head ≠ NULL := by decide
  have hnot : ¬ ∀ junk, take junk 8176 (spliced startHeap 0xFFFF800000001000 8192) =
      some (ret + sizeofChunk, h') := spliced_exact rfl (by decide) (by decide) _
  refine hnot ?_
  intro junk
  have hround : align 8176 sizeofChunk = 8176 := rfl
  have hbig : kalloc .upward junk 8176 startHeap 0 = kallocBig .upward junk 8176 startHeap := by
    rw [kalloc, hround]
    exact if_pos (by decide)
  have hcall := kallocBig_eq (n := 8176) start_pick hhead (by decide) junk
  exact hcall.symm.trans (hbig.symm.trans (hall junk 0))

end Example

end Frosk.KernelHeap
