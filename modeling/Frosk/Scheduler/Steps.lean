import Mathlib.Tactic
import Frosk.Scheduler.Invariant

/-!
# Scheduler: the calls keep the invariant

For each call, that it returns, unless pages run out, and that the invariant holds
of the state it leaves: `yield_inv`, `pageFault_inv`, `kspawn_spec` with
`Kspawned.inv`, and `uspawn_spec` with `Uspawned.inv`.
-/

namespace Frosk.Scheduler

open Lib Regions

variable {E : Env} {I : Image} {cut : Nat} {s s' : State} {l : List Ptr} {t : Ptr}

-- ---------------------------------------------------------------------------
-- yield
-- ---------------------------------------------------------------------------

/-- Regions one above the other do not overlap. -/
theorem overlap_above {x y : Region} (h : x.upper ≤ y.lower) : overlap x y = false := by
  refine Bool.eq_false_iff.mpr ?_
  intro hover
  rw [overlap, decide_eq_true_iff] at hover
  omega

theorem overlap_below {x y : Region} (h : y.lower ≤ x.lower) : overlap x y = false := by
  refine Bool.eq_false_iff.mpr ?_
  intro hover
  rw [overlap, decide_eq_true_iff] at hover
  omega

/-- The blocks of the stack of a thread, which may be none. -/
theorem Inv.stackBlocks (h : Inv cut s l) (ht : t = NULL ∨ t ∈ l) :
    (∀ b ∈ s.space.blocks (stackOf s t), b.Whole) ∧ Apart (s.space.blocks (stackOf s t)) ∧
      Beside uspaceBot cut (s.space.blocks (stackOf s t)) := by
  rcases ht with rfl | ht
  · have hnil : s.space.blocks (stackOf s NULL) = [] := rfl
    rw [hnil]
    exact ⟨by simp, List.Pairwise.nil, by simp [Beside]⟩
  · have hfits := (h.each t ht).stack.2
    rw [blocks_of_ne (h.each t ht).some]
    exact ⟨hfits.whole, hfits.apart, hfits.beside (by decide) (.inr le_rfl)⟩

/-- The blocks of the code are whole, apart, and beside the stack. -/
theorem Inv.codeBlocks (h : Inv cut s l) (ht : t = NULL ∨ t ∈ l) :
    (∀ b ∈ s.space.blocks (codeOf s t), b.Whole) ∧ Apart (s.space.blocks (codeOf s t)) ∧
      Beside cut lowHalfTop (s.space.blocks (codeOf s t)) := by
  have hnil : codeOf s t = NULL → s.space.blocks (codeOf s t) = [] := fun hc => if_pos hc
  by_cases hc : codeOf s t = NULL
  · rw [hnil hc]
    exact ⟨by simp, List.Pairwise.nil, by simp [Beside]⟩
  · rcases ht with rfl | ht
    · exact absurd rfl hc
    · have hfits := ((h.each t ht).code hc).2
      rw [blocks_of_ne hc]
      exact ⟨hfits.whole, hfits.apart, hfits.beside h.split.word (.inl le_rfl)⟩

/-- Below the user's space there is nothing of a thread. -/
theorem Inv.aboveBlocks (h : Inv cut s l) (ht : t = NULL ∨ t ∈ l) :
    Beside 0 uspaceBot (s.space.blocks (stackOf s t)) ∧
      Beside 0 uspaceBot (s.space.blocks (codeOf s t)) := by
  have hnil : codeOf s t = NULL → s.space.blocks (codeOf s t) = [] := fun hc => if_pos hc
  rcases ht with rfl | ht
  · have hnone : s.space.blocks (stackOf s NULL) = [] := rfl
    rw [hnone, hnil rfl]
    exact ⟨by simp [Beside], by simp [Beside]⟩
  · constructor
    · rw [blocks_of_ne (h.each t ht).some]
      exact (h.each t ht).stack.2.beside (by decide) (.inr h.split.above)
    · by_cases hc : codeOf s t = NULL
      · rw [hnil hc]
        simp [Beside]
      · rw [blocks_of_ne hc]
        exact ((h.each t ht).code hc).2.beside h.split.word (.inr le_rfl)

/-- The switch to another thread of the ring exchanges the regions of the two. -/
theorem switchTo_spec (h : Inv cut s l) (ht : t ∈ l) (hne : t ≠ s.curThrd) (rsp : Nat) :
    ∃ m, switchTo rsp t s = .ok (switched rsp t s { s.space with
        swapped := live [stackOf s t, codeOf s t], map := m }) ∧
      Shows cut lowHalfTop (s.space.blocks (stackOf s t)) m ∧
      Shows uspaceBot cut (s.space.blocks (codeOf s t)) m ∧ ∀ v < uspaceBot, m v = s.space.map v := by
  have hnull := h.nonnull ht
  have hok := h.each t ht
  have hcur : s.curThrd = NULL ∨ s.curThrd ∈ l := by
    by_cases hc : s.curThrd = NULL
    · exact .inl hc
    · exact .inr (h.cur hc)
  obtain ⟨hAw, hAa, hAb⟩ := h.stackBlocks hcur
  obtain ⟨hBw, hBa, hBb⟩ := h.codeBlocks hcur
  obtain ⟨hDw, hDa, hDb⟩ := h.stackBlocks (.inr ht)
  obtain ⟨hCw, hCa, hCb⟩ := h.codeBlocks (.inr ht)
  have hAB : stackOf s s.curThrd ≠ NULL → stackOf s s.curThrd ≠ codeOf s s.curThrd := by
    intro hA
    rcases hcur with hc | hc
    · rw [hc] at hA
      exact absurd rfl hA
    · exact (h.each _ hc).differ
  -- the code of the one thread is not the stack of the other
  have hCA : codeOf s t ≠ NULL → codeOf s t ≠ stackOf s s.curThrd := by
    intro hC heq
    rcases hcur with hc | hc
    · rw [hc] at heq
      exact hC heq
    · exact (h.apart t ht _ hc hne _ _ ⟨hC, .inr rfl⟩ ⟨heq ▸ hC, .inl rfl⟩).1 heq
  have hfirst := swapflop_spec (s := s.space) (codeOf s s.curThrd) (codeOf s t) 7
    (by
      intro hB
      rw [h.swapped, mem_live]
      exact ⟨by simp, hB⟩)
    (by
      rw [h.swapped, mem_live]
      exact fun hmem => hmem.2 rfl)
    (by
      intro hC y hy
      rw [h.swapped, live_erase hAB, mem_live, List.mem_singleton] at hy
      obtain ⟨rfl, hy⟩ := hy
      refine overlap_above ?_
      rcases hcur with hc | hc
      · rw [hc] at hy
        exact absurd rfl hy
      · have hcode := (hok.code hC).2.bounds h.split.word
        have hstack := (h.each _ hc).stack.2.bounds (by decide)
        omega)
    hBw hCw
  rw [h.swapped, live_erase hAB, ← live_cons] at hfirst
  have hsecond := swapflop_spec (stackOf s s.curThrd) (stackOf s t)
    (s := { s.space with
      swapped := live [codeOf s t, stackOf s s.curThrd]
      map := mapBlocks (blockEntry 7) (s.space.blocks (codeOf s t))
        (mapBlocks (fun _ _ => 0) (s.space.blocks (codeOf s s.curThrd)) s.space.map) }) 7
    (by
      intro hA
      rw [mem_live]
      exact ⟨by simp, hA⟩)
    (by
      rw [mem_live]
      exact fun hmem => hmem.2 rfl)
    (by
      intro hD y hy
      rw [live_erase hCA, mem_live, List.mem_singleton] at hy
      obtain ⟨rfl, hy⟩ := hy
      refine overlap_below ?_
      have hcode := (hok.code hy).2.bounds h.split.word
      have hstack := hok.stack.2.bounds (by decide)
      show (s.space.rgn (codeOf s t)).lower ≤ (s.space.rgn (stackOf s t)).lower
      omega)
    hAw hDw
  rw [live_erase hCA, ← live_cons] at hsecond
  refine ⟨mapBlocks (blockEntry 7) (s.space.blocks (stackOf s t)) (mapBlocks (fun _ _ => 0)
    (s.space.blocks (stackOf s s.curThrd)) (mapBlocks (blockEntry 7) (s.space.blocks (codeOf s t))
      (mapBlocks (fun _ _ => 0) (s.space.blocks (codeOf s s.curThrd)) s.space.map))), ?_, ?_, ?_,
    fun v hv => ?_⟩
  · rw [switchTo_eq hnull, hfirst, ok_bind]
    dsimp only at hsecond ⊢
    rw [hsecond, ok_bind]
    rfl
  · refine shows_flop (shows_congr h.high fun v hlo hhi => ?_) hDa
    rw [mapBlocks_beside hCb hlo hhi, mapBlocks_beside hBb hlo hhi]
  · refine shows_congr (shows_flop h.low hCa) ?_
    intro v hlo hhi
    rw [mapBlocks_beside hDb hlo hhi, mapBlocks_beside hAb hlo hhi]
  · obtain ⟨hAl, hBl⟩ := h.aboveBlocks hcur
    obtain ⟨hDl, hCl⟩ := h.aboveBlocks (.inr ht)
    rw [mapBlocks_beside hDl v.zero_le hv, mapBlocks_beside hAl v.zero_le hv,
      mapBlocks_beside hCl v.zero_le hv, mapBlocks_beside hBl v.zero_le hv]

/-- The switch keeps the invariant. -/
theorem switchTo_inv {l l' : List Ptr} (h : Inv cut s (l ++ t :: l')) (hne : t ≠ s.curThrd)
    {rsp : Nat} (hs' : switchTo rsp t s = .ok s') :
    Inv cut s' (l' ++ (l ++ [t])) ∧ Switched s s' rsp t := by
  have ht : t ∈ l ++ t :: l' := by simp
  have hmem : ∀ {u}, u ∈ l' ++ (l ++ [t]) ↔ u ∈ l ++ t :: l' := by
    intro u
    simp only [List.mem_append, List.mem_cons]
    tauto
  obtain ⟨m, heq, hhigh, hlow, -⟩ := switchTo_spec h ht hne rsp
  have hval := Except.ok.inj (hs'.symm.trans heq)
  have hsw := switched_spec (s := s) rsp t { s.space with
    swapped := live [stackOf s t, codeOf s t], map := m }
  rw [← hval] at hsw
  have hspace : s'.space = { s.space with
      swapped := live [stackOf s t, codeOf s t], map := m } := by
    rw [hval]
    rfl
  have hstack := hsw.stackOf_eq
  have hcode := hsw.codeOf_eq
  refine ⟨⟨h.split, ?_, fun u hu => ?_, fun u hu v hv huv r q hr hq => ?_, fun _ => ?_, ?_, ?_, ?_,
    ?_, ?_⟩, hsw⟩
  · exact onRing_rotate h.ring hsw.head hsw.next
  · refine threadOk_congr (h.each u (hmem.mp hu)) (hsw.parent u) (hstack u) (hcode u) ?_ ?_ ?_
    · intro r _
      rw [hspace]
    · rw [hspace]
      exact fun _ hx => hx
    · rw [hspace]
      exact fun _ hx => hx
  · rw [Owns, hstack, hcode] at hr hq
    rw [hspace]
    exact h.apart u (hmem.mp hu) v (hmem.mp hv) huv r q hr hq
  · rw [hsw.cur]
    exact hmem.mpr ht
  · rw [hsw.cur, hstack, hcode, hspace]
  · rw [hsw.cur, hstack, hspace]
    exact hhigh
  · rw [hsw.cur, hcode, hspace]
    exact hlow
  · rw [hsw.lock]
    exact h.lock
  · rw [hspace]
    exact h.refused

/-- `yield` returns, and keeps the invariant. -/
theorem yield_inv (h : Inv cut s l) (rsp : Nat) :
    ∃ n s' l', yield n rsp s = .ok s' ∧ Inv cut s' l' ∧ (∀ u, u ∈ l' ↔ u ∈ l) ∧
      ∀ u, u ≠ s.curThrd → Untouched s s' u := by
  obtain ⟨n, hn⟩ := (yield_spec h.ring h.lock rsp).1
  rw [yielded] at hn
  cases hfind : l.find? (Ready s) with
  | none =>
    rw [hfind] at hn
    exact ⟨n, s, l, hn, h, fun _ => Iff.rfl, fun u _ =>
      ⟨rfl, rfl, rfl, fun _ _ => rfl, fun _ _ _ _ _ _ => rfl⟩⟩
  | some t =>
    rw [hfind] at hn
    obtain ⟨hready, l₁, l₂, rfl, _⟩ := List.find?_eq_some_iff_append.mp hfind
    have hne : t ≠ s.curThrd := (of_decide_eq_true hready).2
    obtain ⟨m, heq, _⟩ := switchTo_spec h (by simp) hne rsp
    obtain ⟨hinv, hsw⟩ := switchTo_inv h hne heq
    refine ⟨n, _, _, hn.trans heq, hinv, ?_, ?_⟩
    · intro u
      simp only [List.mem_append, List.mem_cons]
      tauto
    · intro u hu
      refine ⟨?_, ?_, ?_, fun _ _ => rfl, fun _ _ _ _ _ _ => rfl⟩
      · rw [hsw.rsp, if_neg (fun hand => hu hand.1)]
      · exact hsw.stackOf_eq u
      · exact hsw.codeOf_eq u

-- ---------------------------------------------------------------------------
-- page_fault
-- ---------------------------------------------------------------------------

/-- A region, which may have grown first, got the page. -/
structure Served (E : Env) (s s' : Space) (r page phys lo hi n : Nat) : Prop where
  range  : lo ≤ page ∧ page < hi
  size   : (s.rgn r).size ≤ n
  fits   : Fits lo hi { s.rgn r with size := n }
  lower  : ({ s.rgn r with size := n } : Region).lower ≤ page
  upper  : page < ({ s.rgn r with size := n } : Region).upper
  gained : Gained E (s.modify r fun v => { v with size := n }) s' r page phys

/-- Changing one region. -/
theorem modify_rgn (s : Space) (r : Ptr) (f : Region → Region) :
    (s.modify r f).rgn r = f (s.rgn r) :=
  Function.update_self ..

/-- A page in the region. -/
theorem served_inside {s : Space} {r page lo hi : Nat} (hfits : Fits lo hi (s.rgn r))
    (hword : hi < wordSize) (hpage : page % pageSize = 0) (hlower : (s.rgn r).lower ≤ page)
    (hupper : page < (s.rgn r).upper) (hnew : ∀ b ∈ (s.rgn r).blocks, ¬ b.HasPage page) :
    Returns (assure E r page 7 s) fun x =>
      x.2 = true ∧ ∃ phys, Served E s x.1 r page phys lo hi (s.rgn r).size := by
  have hself : s.modify r (fun v => { v with size := (s.rgn r).size }) = s := by
    rw [Space.modify, Function.update_eq_self]
  have hbounds := hfits.bounds hword
  refine returns_mono (assure_spec hfits hword hpage hlower hupper hnew) ?_
  intro x ⟨hx, phys, hgained⟩
  refine ⟨hx, phys, by omega, le_rfl, hfits, hlower, hupper, ?_⟩
  rw [hself]
  exact hgained

/-- A page beyond the region: the region grows to it. -/
theorem served_beyond {s : Space} {r page lo hi : Nat} (n upto : Nat) (hfits : Fits lo hi (s.rgn r))
    (hhi : hi < wordSize / 2) (hpage : page % pageSize = 0) (hrange : lo ≤ page ∧ page < hi)
    (hn : n % pageSize = 0) (hroom : lo + n ≤ hi) (hlt : (s.rgn r).size < n)
    (hin : if (s.rgn r).growup then page < lo + n ∧ upto = lo + n
      else hi - n ≤ page ∧ upto = hi - n)
    (hnew : ∀ b ∈ (s.rgn r).blocks, ¬ b.HasPage page) :
    Returns (do
      let s ← grow r upto s
      assure E r page 7 s) fun x => ∃ phys, Served E s x.1 r page phys lo hi n := by
  have hword : hi < wordSize := by
    unfold wordSize at *
    omega
  have hwide := hfits.widen hword hn hlt.le hroom
  have hupto : upto = if (s.rgn r).growup then lo + n else hi - n := by
    split at hin
    · rename_i hup
      rw [if_pos hup]
      exact hin.2
    · rename_i hup
      rw [if_neg hup]
      exact hin.2
  have hmod := modify_rgn s r fun v => { v with size := n }
  have hlower : ({ s.rgn r with size := n } : Region).lower ≤ page := by
    rw [hwide.lower_eq hword]
    dsimp only
    split at hin
    · rename_i hup
      rw [if_pos hup]
      exact hrange.1
    · rename_i hup
      rw [if_neg hup]
      exact hin.1
  have hupper : page < ({ s.rgn r with size := n } : Region).upper := by
    rw [hwide.upper_eq hword]
    dsimp only
    split at hin
    · rename_i hup
      rw [if_pos hup]
      exact hin.1
    · rename_i hup
      rw [if_neg hup]
      exact hrange.2
  rw [grow_spec hfits hword hn hroom hlt hhi hupto, ok_bind]
  have hfits' : Fits lo hi ((s.modify r fun v => { v with size := n }).rgn r) := by
    rw [hmod]
    exact hwide
  refine returns_mono (assure_spec hfits' hword hpage ?_ ?_ ?_) ?_
  · rw [hmod]
    exact hlower
  · rw [hmod]
    exact hupper
  · rw [hmod]
    exact hnew
  · intro x ⟨_, phys, hgained⟩
    exact ⟨phys, hrange, hlt.le, hwide, hlower, hupper, hgained⟩

/-- A write to a page of the low half that is not present is served by the one of
the two regions that has this part of it. -/
theorem pageFault_spec {stack code cr2 : Nat} (hcut : IsCut cut)
    (hs : (s.thr s.curThrd).stack = stack)
    (hc : (s.proc (s.thr s.curThrd).parent).code = code)
    (hdown : (s.space.rgn stack).growup = false)
    (hstack : Fits cut lowHalfTop (s.space.rgn stack))
    (hup : (s.space.rgn code).growup = true)
    (hcode : Fits uspaceBot cut (s.space.rgn code))
    (hrange : uspaceBot ≤ cr2 ∧ cr2 < lowHalfTop) (hside : cr2 < middle ∨ cut ≤ cr2)
    (hnew : ∀ r, r = stack ∨ r = code → ∀ b ∈ (s.space.rgn r).blocks,
      ¬ b.HasPage (floor cr2 pageSize)) :
    Returns (pageFault E userWrite cr2 s) fun s' => ∃ space n phys,
      s' = { s with space := space } ∧
      (Served E s.space space stack (floor cr2 pageSize) phys cut lowHalfTop n ∨
        Served E s.space space code (floor cr2 pageSize) phys uspaceBot cut n) := by
  have hpage : floor cr2 pageSize % pageSize = 0 := by
    rw [floor_eq]
    unfold pageSize
    omega
  have hpaged : uspaceBot ≤ floor cr2 pageSize ∧ floor cr2 pageSize < lowHalfTop := by
    rw [floor_eq]
    unfold pageSize uspaceBot at *
    omega
  have hsided : floor cr2 pageSize < middle ∨ cut ≤ floor cr2 pageSize := by
    have hcutp := hcut.paged
    rw [floor_eq]
    unfold pageSize at *
    omega
  have hlow := hcut.low
  have hcutp := hcut.paged
  have hbelow := hcut.below
  rw [pageFault, if_neg (fun hne => hne rfl), hs, hc]
  generalize floor cr2 pageSize = page at *
  have hsb := hstack.bounds (by decide)
  have hcb := hcode.bounds hcut.word
  have hsl := hstack.lower_eq (by decide)
  have hcu := hcode.upper_eq hcut.word
  have hcl := hcode.lower_eq hcut.word
  have hsu := hstack.upper_eq (by decide)
  rw [hdown, if_neg (by simp)] at hsl hsu
  rw [hup, if_pos rfl] at hcu hcl
  dsimp only
  by_cases hin : (s.space.rgn stack).lower ≤ page ∧ page < (s.space.rgn stack).upper
  · refine returns_bind (served_inside hstack (by decide) hpage hin.1 hin.2 (hnew stack (.inl rfl))) ?_
    intro ⟨space, found⟩ ⟨hfound, phys, hserved⟩
    dsimp only at hfound hserved ⊢
    rw [hfound, if_pos rfl]
    exact ⟨space, _, phys, rfl, .inl hserved⟩
  rw [assure_outside 7 hin, ok_bind]
  dsimp only
  rw [if_neg (by simp)]
  by_cases hin' : (s.space.rgn code).lower ≤ page ∧ page < (s.space.rgn code).upper
  · refine returns_bind (served_inside hcode hcut.word hpage hin'.1 hin'.2 (hnew code (.inr rfl))) ?_
    intro ⟨space, found⟩ ⟨hfound, phys, hserved⟩
    dsimp only at hfound hserved ⊢
    rw [hfound, if_pos rfl]
    exact ⟨space, _, phys, rfl, .inr hserved⟩
  rw [assure_outside 7 hin', ok_bind]
  dsimp only
  rw [if_neg (by simp)]
  by_cases hhalf : page < middle
  · -- the heap grows up to the page
    rw [if_pos hhalf]
    have hend : (page + pageSize) % wordSize = uspaceBot + (page + pageSize - uspaceBot) := by
      unfold wordSize pageSize middle lowHalfTop uspaceBot at *
      omega
    have hgrown := served_beyond (E := E) (page + pageSize - uspaceBot)
      ((page + pageSize) % wordSize) hcode (hbelow.trans (by decide)) hpage
      ⟨hpaged.1, by omega⟩
      (by unfold pageSize middle lowHalfTop uspaceBot at *; omega)
      (by unfold pageSize middle lowHalfTop uspaceBot at *; omega)
      (by unfold pageSize middle lowHalfTop uspaceBot at *; omega)
      (by
        rw [hup, if_pos rfl]
        refine ⟨?_, hend⟩
        unfold pageSize middle lowHalfTop uspaceBot at *
        omega)
      (hnew code (.inr rfl))
    have hassoc := returns_bind (f := fun x => Except.ok ({ s with space := x.1 } : State))
      (Q := fun s' => ∃ space n phys, s' = { s with space := space } ∧
        (Served E s.space space stack page phys cut lowHalfTop n ∨
          Served E s.space space code page phys uspaceBot cut n)) hgrown
      fun x ⟨phys, hserved⟩ => ⟨x.1, _, phys, rfl, .inr hserved⟩
    rw [bind_assoc] at hassoc
    exact hassoc
  · rw [if_neg hhalf]
    have hgrown := served_beyond (E := E) (lowHalfTop - page) page hstack
      (by decide) hpage ⟨by omega, hpaged.2⟩
      (by unfold pageSize middle lowHalfTop at *; omega)
      (by omega)
      (by omega)
      (by
        rw [hdown, if_neg (by simp)]
        omega)
      (hnew stack (.inl rfl))
    have hassoc := returns_bind (f := fun x => Except.ok ({ s with space := x.1 } : State))
      (Q := fun s' => ∃ space n phys, s' = { s with space := space } ∧
        (Served E s.space space stack page phys cut lowHalfTop n ∨
          Served E s.space space code page phys uspaceBot cut n)) hgrown
      fun x ⟨phys, hserved⟩ => ⟨x.1, _, phys, rfl, .inl hserved⟩
    rw [bind_assoc] at hassoc
    exact hassoc

section Served

variable {s s' : Space} {r q page phys lo hi n : Nat} (h : Served E s s' r page phys lo hi n)
include h

/-- The region that was served, and the others. -/
theorem Served.rgn :
    s'.rgn = Function.update s.rgn r { s.rgn r with
      size := n, blocks := ⟨page, phys, pageSize⟩ :: (s.rgn r).blocks } := by
  rw [h.gained.eq]
  show Function.update (Function.update s.rgn r _) r _ = _
  rw [Function.update_idem, modify_rgn]

/-- The region that was served has the page. -/
theorem Served.rgn_self : s'.rgn r = { s.rgn r with
    size := n, blocks := ⟨page, phys, pageSize⟩ :: (s.rgn r).blocks } := by
  rw [h.rgn, Function.update_self]

theorem Served.rgn_ne (hq : q ≠ r) : s'.rgn q = s.rgn q := by
  rw [h.rgn, Function.update_of_ne hq]

/-- The page is mapped. -/
theorem Served.map : s'.map = Function.update s.map page (phys ||| 7) := by
  rw [h.gained.eq]
  rfl

/-- The frame of the page is taken. -/
theorem Served.frames : s'.frames = phys :: s.frames := by
  rw [h.gained.eq]
  rfl

theorem Served.used : s'.used = s.used := by
  rw [h.gained.eq]
  rfl

theorem Served.swapped : s'.swapped = s.swapped := by
  rw [h.gained.eq]
  rfl

theorem Served.refused : s'.refused = s.refused := by
  rw [h.gained.eq]
  rfl

/-- The frame is the one that was picked. -/
theorem Served.pick : E.phys.pick pageSize s.frames = some phys := h.gained.fresh

theorem Served.fresh : phys ∉ s.frames := by
  have hfree := E.phys.fresh h.pick 0 (by decide)
  rwa [Nat.zero_mul, Nat.add_zero] at hfree

/-- What was taken is still taken. -/
theorem Served.grow {f : Nat} (hf : f ∈ s.frames) : f ∈ s'.frames := by
  rw [h.frames]
  exact List.mem_cons_of_mem _ hf

/-- Only the served region has the new frame. -/
theorem Served.rgn_frames {f : Nat} (hf : f ∈ (s'.rgn q).frames) :
    f ∈ (s.rgn q).frames ∨ q = r ∧ f = phys := by
  by_cases hq : q = r
  · rw [hq, h.rgn_self, Region.frames, List.flatMap_cons, List.mem_append, pageRange_page,
      List.mem_singleton] at hf
    rcases hf with hf | hf
    · exact .inr ⟨hq, hf⟩
    · rw [hq]
      exact .inl hf
  · rw [h.rgn_ne hq] at hf
    exact .inl hf

/-- The served region fits as before. -/
theorem Served.fits' (hword : hi < wordSize) (hlo : lo % pageSize = 0) (hhi : hi % pageSize = 0)
    (hpage : page % pageSize = 0) (hnew : ∀ b ∈ (s.rgn r).blocks, ¬ b.HasPage page) :
    Fits lo hi (s'.rgn r) := by
  have hrange := h.range
  have hb : (⟨page, phys, pageSize⟩ : Block).Whole := by
    refine ⟨hpage, E.phys.paged h.pick, Nat.mod_self _, ?_, E.phys.fits h.pick⟩
    dsimp only
    unfold wordSize pageSize at *
    omega
  have hcons := h.fits.cons hword hb rfl h.lower h.upper hlo hhi hnew
  rw [h.rgn_self]
  exact hcons

/-- A region is still mapped as it was, but for the new page of the region that has it. -/
theorem Served.shows (hr : r ≠ NULL) (hpage : page % pageSize = 0)
    (hnew : ∀ b ∈ (s.rgn r).blocks, ¬ b.HasPage page) {lo' hi' : Nat}
    (heq : q = r → lo' = lo ∧ hi' = hi) (hne : q ≠ r → hi' ≤ lo ∨ hi ≤ lo')
    (hold : Shows lo' hi' (s.blocks q) s.map) : Shows lo' hi' (s'.blocks q) s'.map := by
  rw [h.map]
  by_cases hq : q = r
  · subst hq
    have hphys : phys < wordSize := by
      have hlt := E.phys.fits h.pick
      unfold wordSize pageSize at *
      omega
    rw [blocks_of_ne hr] at hold ⊢
    rw [h.rgn_self]
    exact shows_add hold rfl hpage hphys hnew
  · have hsame : s'.blocks q = s.blocks q := by
      unfold Space.blocks
      rw [h.rgn_ne hq]
    rw [hsame]
    refine shows_congr hold fun v hlo hhi => Function.update_of_ne ?_ ..
    have hside := hne hq
    have hrange := h.range
    omega

end Served

section Serving

variable {space : Space} {r page phys lo hi n : Nat} (hserved : Served E s.space space r page phys lo hi n)
include hserved

/-- The thread that the page is for. -/
theorem served_thread (hok : ThreadOk cut s s.curThrd)
    (hpart : (r = stackOf s s.curThrd ∧ lo = cut ∧ hi = lowHalfTop) ∨
      (r = codeOf s s.curThrd ∧ r ≠ NULL ∧ lo = uspaceBot ∧ hi = cut))
    (hfits : Fits lo hi (space.rgn r)) : ThreadOk cut { s with space := space } s.curThrd := by
  refine ⟨?_, ?_, ?_, hok.some, hok.differ, ?_, ?_⟩
  · show s.curThrd ∈ space.used
    rw [hserved.used]
    exact hok.used
  · show _ ∈ space.used
    rw [hserved.used]
    exact hok.parent
  · intro q hq
    have hold := hok.owned q hq
    refine ⟨hserved.used ▸ hold.1, ?_⟩
    intro f hf
    rcases hserved.rgn_frames hf with hf | ⟨rfl, rfl⟩
    · exact hserved.grow (hold.2 f hf)
    · show f ∈ space.frames
      rw [hserved.frames]
      exact List.mem_cons_self
  · show (space.rgn (stackOf s s.curThrd)).growup = false ∧
      Fits cut lowHalfTop (space.rgn (stackOf s s.curThrd))
    rcases hpart with ⟨rfl, rfl, rfl⟩ | ⟨rfl, _⟩
    · refine ⟨?_, hfits⟩
      rw [hserved.rgn_self]
      exact hok.stack.1
    · rw [hserved.rgn_ne hok.differ]
      exact hok.stack
  · intro hne
    show (space.rgn (codeOf s s.curThrd)).growup = true ∧
      Fits uspaceBot cut (space.rgn (codeOf s s.curThrd))
    have hcode := hok.code hne
    rcases hpart with ⟨rfl, _⟩ | ⟨rfl, _, rfl, rfl⟩
    · rw [hserved.rgn_ne hok.differ.symm]
      exact hcode
    · refine ⟨?_, hfits⟩
      rw [hserved.rgn_self]
      exact hcode.1

/-- The new frame is in no region of another thread. -/
theorem served_apart (h : Inv cut s l) {t u q q' : Ptr} (ht : t ∈ l) (hu : u ∈ l) (hne : t ≠ u)
    (hq : Owns s t q) (hq' : Owns s u q') : FramesApart (space.rgn q) (space.rgn q') := by
  obtain ⟨hdiffer, hold⟩ := h.apart t ht u hu hne q q' hq hq'
  intro f hf hf'
  rcases hserved.rgn_frames hf with hf | ⟨rfl, rfl⟩
  · rcases hserved.rgn_frames hf' with hf' | ⟨rfl, rfl⟩
    · exact hold f hf hf'
    · exact hserved.fresh (((h.each t ht).owned q hq).2 f hf)
  · rcases hserved.rgn_frames hf' with hf' | ⟨rfl, _⟩
    · exact hserved.fresh (((h.each u hu).owned q' hq').2 f hf')
    · exact hdiffer rfl

/-- Serving a page for one of the two regions of the current thread. -/
theorem served_inv (h : Inv cut s l) (hcur : s.curThrd ∈ l)
    (hpart : (r = stackOf s s.curThrd ∧ lo = cut ∧ hi = lowHalfTop) ∨
      (r = codeOf s s.curThrd ∧ r ≠ NULL ∧ lo = uspaceBot ∧ hi = cut))
    (hpage : page % pageSize = 0) (hnew : ∀ b ∈ (s.space.rgn r).blocks, ¬ b.HasPage page) :
    Inv cut { s with space := space } l := by
  have hok := h.each _ hcur
  have howns : Owns s s.curThrd r := by
    rcases hpart with ⟨rfl, _⟩ | ⟨rfl, hne, _⟩
    · exact ⟨hok.some, .inl rfl⟩
    · exact ⟨hne, .inr rfl⟩
  have hfits : Fits lo hi (space.rgn r) := by
    rcases hpart with ⟨_, rfl, rfl⟩ | ⟨_, _, rfl, rfl⟩
    · exact hserved.fits' (by decide) h.split.paged (by decide) hpage hnew
    · exact hserved.fits' h.split.word (by decide) h.split.paged hpage hnew
  refine ⟨h.split, onRing_congr h.ring rfl fun _ _ => rfl, fun t ht => ?_,
    fun t ht u hu hne q q' hq hq' =>
      ⟨(h.apart t ht u hu hne q q' hq hq').1, served_apart hserved h ht hu hne hq hq'⟩,
    h.cur, hserved.swapped.trans h.swapped, ?_, ?_, h.lock, hserved.refused.trans h.refused⟩
  · by_cases htc : t = s.curThrd
    · subst htc
      exact served_thread hserved hok hpart hfits
    · refine threadOk_congr (h.each t ht) rfl rfl rfl (fun q hq => hserved.rgn_ne ?_)
        (fun x hx => ?_) fun f hf => hserved.grow hf
      · exact (h.apart t ht _ hcur htc q r hq howns).1
      · show x ∈ space.used
        rw [hserved.used]
        exact hx
  · refine hserved.shows howns.1 hpage hnew ?_ ?_ h.high
    · intro heq
      rcases hpart with ⟨_, hlo, hhi⟩ | ⟨hr, _⟩
      · exact ⟨hlo.symm, hhi.symm⟩
      · exact absurd (heq.trans hr) hok.differ
    · intro hne
      rcases hpart with ⟨hr, _⟩ | ⟨_, _, rfl, rfl⟩
      · exact absurd hr.symm hne
      · exact .inr le_rfl
  · refine hserved.shows howns.1 hpage hnew ?_ ?_ h.low
    · intro heq
      rcases hpart with ⟨hr, _⟩ | ⟨_, _, hlo, hhi⟩
      · exact absurd (heq.trans hr) hok.differ.symm
      · exact ⟨hlo.symm, hhi.symm⟩
    · intro hne
      rcases hpart with ⟨_, rfl, rfl⟩ | ⟨hr, _⟩
      · exact .inl le_rfl
      · exact absurd hr.symm hne

end Serving

/-- A write of the current user thread to an address that is not present. -/
structure UserFault (s : State) (cr2 : Nat) : Prop where
  user   : codeOf s s.curThrd ≠ NULL
  range  : uspaceBot ≤ cr2 ∧ cr2 < lowHalfTop
  absent : s.space.map (floor cr2 pageSize) % 2 = 0

/-- A fault of a user has a running thread. -/
theorem UserFault.cur {cr2 : Nat} (hf : UserFault s cr2) : s.curThrd ≠ NULL := by
  intro heq
  refine hf.user ?_
  rw [heq]
  rfl

/-- The entries of a block are present. -/
theorem blockEntry_present {b : Block} (off : Nat) : blockEntry 7 b off % 2 = 1 := by
  rw [blockEntry, Nat.or_mod_two_eq_one]
  exact .inr rfl

/-- No block of the thread has the page. -/
theorem UserFault.new (h : Inv cut s l) {cr2 : Nat} (hf : UserFault s cr2) :
    ∀ r, r = stackOf s s.curThrd ∨ r = codeOf s s.curThrd → ∀ b ∈ (s.space.rgn r).blocks,
      ¬ b.HasPage (floor cr2 pageSize) := by
  have hpage : floor cr2 pageSize % pageSize = 0 := by
    rw [floor_eq]
    unfold pageSize
    omega
  have hok := h.each _ (h.cur hf.cur)
  have habsent := hf.absent
  intro r hr b hb hhas
  generalize floor cr2 pageSize = page at *
  have hpresent : s.space.map page % 2 = 1 := by
    rcases hr with rfl | rfl
    · have hin := hok.stack.2.inside b hb
      have hbounds := hok.stack.2.bounds (by decide)
      rw [h.high.own page (by unfold Block.HasPage at hhas; omega)
        (by unfold Block.HasPage at hhas; omega) hpage b
        (by rw [blocks_of_ne hok.some]; exact hb) hhas]
      exact blockEntry_present _
    · have hin := (hok.code hf.user).2.inside b hb
      have hbounds := (hok.code hf.user).2.bounds h.split.word
      rw [h.low.own page (by unfold Block.HasPage at hhas; omega)
        (by unfold Block.HasPage at hhas; omega) hpage b
        (by rw [blocks_of_ne hf.user]; exact hb) hhas]
      exact blockEntry_present _
  omega

/-- A fault leaves the other threads alone. -/
theorem untouched_served (h : Inv cut s l) {space : Space} {r page phys lo hi n : Nat}
    (hserved : Served E s.space space r page phys lo hi n) (hcur : s.curThrd ∈ l)
    (hr : Owns s s.curThrd r) (ht : t ∈ l) (hne : t ≠ s.curThrd) :
    Untouched s { s with space := space } t := by
  refine ⟨rfl, rfl, rfl, ?_, ?_⟩
  · intro q hq
    show space.rgn q = s.space.rgn q
    rw [hserved.rgn_ne (h.apart t ht _ hcur hne q r hq hr).1]
  · intro _ _ _ _ _ _
    show space.mem _ = s.space.mem _
    rw [hserved.gained.eq]
    rfl

/-- A page fault of the current user thread is served. -/
theorem pageFault_inv (h : Inv cut s l) {cr2 : Nat} (hf : UserFault s cr2)
    (hside : cr2 < middle ∨ cut ≤ cr2) :
    Returns (pageFault E userWrite cr2 s) fun s' =>
      Inv cut s' l ∧ ∃ space n phys, s' = { s with space := space } ∧
        (Served E s.space space (stackOf s s.curThrd) (floor cr2 pageSize) phys cut lowHalfTop n ∨
          Served E s.space space (codeOf s s.curThrd) (floor cr2 pageSize) phys uspaceBot cut n)
      := by
  have hok := h.each _ (h.cur hf.cur)
  have hpage : floor cr2 pageSize % pageSize = 0 := by
    rw [floor_eq]
    unfold pageSize
    omega
  have hnew := UserFault.new h hf
  refine returns_mono (pageFault_spec h.split (stackOf_ne hf.cur).symm (codeOf_ne hf.cur).symm
    hok.stack.1 hok.stack.2 (hok.code hf.user).1 (hok.code hf.user).2 hf.range hside hnew) ?_
  intro s' ⟨space, n, phys, hs', hserved⟩
  refine ⟨?_, space, n, phys, hs', hserved⟩
  rw [hs']
  rcases hserved with hserved | hserved
  · exact served_inv hserved h (h.cur hf.cur) (.inl ⟨rfl, rfl, rfl⟩) hpage (hnew _ (.inl rfl))
  · exact served_inv hserved h (h.cur hf.cur) (.inr ⟨rfl, hf.user, rfl, rfl⟩) hpage
      (hnew _ (.inr rfl))

-- ---------------------------------------------------------------------------
-- Parts of a spawn
-- ---------------------------------------------------------------------------

/-- Changing a thread that is not in use is quiet. -/
theorem Quiet.modifyThr (hq : Quiet s s') {p : Ptr} (hp : p ∉ s.space.used)
    (f : Thread → Thread) : Quiet s (s'.modifyThr p f) := by
  have hother : ∀ t ∈ s.space.used, (s'.modifyThr p f).thr t = s'.thr t := by
    intro t ht
    have hne : t ≠ p := fun heq => hp (heq ▸ ht)
    exact Function.update_of_ne hne ..
  refine ⟨hq.used, fun t ht => ?_, fun t ht => ?_, hq.code, hq.rgn, hq.frames, hq.mem, hq.low,
    hq.swapped, hq.head, hq.cur, hq.lock, hq.refused⟩
  · rw [hother t ht]
    exact hq.thr t ht
  · rw [hother t ht]
    exact hq.rsp t ht

/-- Changing a process but for its code is quiet. -/
theorem Quiet.modifyProc (hq : Quiet s s') {p : Ptr} {f : Process → Process}
    (hp : p ∉ s.space.used ∨ ∀ v, (f v).code = v.code) : Quiet s (s'.modifyProc p f) := by
  refine ⟨hq.used, hq.thr, hq.rsp, fun q hmem => ?_, hq.rgn, hq.frames, hq.mem, hq.low, hq.swapped,
    hq.head, hq.cur, hq.lock, hq.refused⟩
  rcases hp with hp | hf
  · have hne : q ≠ p := fun heq => hp (heq ▸ hmem)
    exact (congrArg Process.code (Function.update_of_ne hne ..)).trans (hq.code q hmem)
  · exact (modifyProc_field Process.code hf p q s').trans (hq.code q hmem)

/-- Allocating is quiet. -/
theorem alloc_quiet (s : State) : Quiet s { s with space := (s.space.alloc E).1 } :=
  ⟨fun _ hx => List.mem_cons_of_mem _ hx, fun _ _ => ⟨rfl, rfl, rfl⟩, fun _ _ => rfl,
    fun _ _ => rfl, fun _ _ => rfl, fun _ hf => hf, fun _ _ _ _ _ => rfl, fun _ _ => rfl, rfl, rfl,
    rfl, rfl, rfl⟩

/-- A region that no thread has. -/
structure Spare (s : State) (l : List Ptr) (r : Ptr) : Prop where
  used   : r ∈ s.space.used
  ne     : r ≠ NULL
  frames : ∀ f ∈ (s.space.rgn r).frames, f ∈ s.space.frames
  apart  : ∀ t ∈ l, ∀ q, Owns s t q → r ≠ q ∧ FramesApart (s.space.rgn r) (s.space.rgn q)

/-- A spare region stays spare. -/
theorem spare_quiet (h : Inv cut s l) {r : Ptr} (hr : Spare s l r) (hq : Quiet s s') :
    Spare s' l r := by
  have hrgn := hq.rgn r hr.used
  refine ⟨hq.used r hr.used, hr.ne, fun f hf => hq.frames f (hr.frames f (hrgn ▸ hf)), ?_⟩
  intro t ht q howns
  have howns := (quiet_owns h hq ht).mp howns
  rw [hrgn, hq.rgn q ((h.each t ht).owned q howns).1]
  exact hr.apart t ht q howns

section Loaded

variable {old space : Space} {r virt n phys : Nat} {growup : Bool}

/-- A region that was loaded is new. -/
theorem Loaded.new (h : Loaded E old space r virt n growup phys) : r ∉ old.used := by
  rw [h.ptr]
  exact E.kalloc.fresh _

/-- The frames of a loaded region are not those in use. -/
theorem Loaded.fresh (h : Loaded E old space r virt n growup phys) {f : Nat} (hf : f ∈ old.frames)
    (hpaged : f % pageSize = 0) : f + pageSize ≤ phys ∨ phys + n ≤ f := by
  have hphys := E.phys.paged h.pick
  have hfresh := E.phys.fresh h.pick ((f - phys) / pageSize)
  by_contra hin
  refine hfresh ?_ ?_
  · unfold pageSize at *
    omega
  · have heq : phys + (f - phys) / pageSize * pageSize = f := by
      unfold pageSize at *
      omega
    rw [heq]
    exact hf

theorem Loaded.quiet (h : Loaded E s.space space r virt n growup phys) :
    Quiet s { s with space := space } := by
  refine ⟨fun x hx => ?_, fun _ _ => ⟨rfl, rfl, rfl⟩, fun _ _ => rfl, fun _ _ => rfl,
    fun q hq => ?_, fun f hf => ?_, fun f hf hpaged i hi => ?_, h.low, h.swapped, rfl, rfl, rfl, h.refused⟩
  · show x ∈ space.used
    rw [h.used]
    exact List.mem_cons_of_mem _ hx
  · have hne : q ≠ r := fun heq => h.new (heq ▸ hq)
    show space.rgn q = s.space.rgn q
    rw [h.rgn, Function.update_of_ne hne]
  · show f ∈ space.frames
    rw [h.frames]
    exact List.mem_append_right _ hf
  · have hside := h.fresh hf hpaged
    exact h.mem _ (by omega)

theorem Loaded.region (h : Loaded E old space r virt n growup phys) :
    space.rgn r = ⟨virt, n, oneBlock (if growup then virt else virt - n) phys n, growup⟩ := by
  rw [h.rgn, Function.update_self]

theorem Loaded.mem_frames (h : Loaded E old space r virt n growup phys) {f : Nat}
    (hf : f ∈ (space.rgn r).frames) : f ∈ pageRange phys n := by
  rw [h.region, Region.frames, oneBlock] at hf
  dsimp only at hf
  split at hf
  · simpa using hf
  · simp at hf

theorem Loaded.spare (hinv : Inv cut s l) (h : Loaded E s.space space r virt n growup phys) :
    Spare { s with space := space } l r := by
  refine ⟨?_, ?_, ?_, ?_⟩
  · show r ∈ space.used
    rw [h.used]
    exact List.mem_cons_self
  · rw [h.ptr]
    exact E.kalloc.ne_null _
  · intro f hf
    show f ∈ space.frames
    rw [h.frames]
    exact List.mem_append_left _ (h.mem_frames hf)
  · intro t ht q howns
    have howned := (hinv.each t ht).owned q howns
    have hne : q ≠ r := fun heq => h.new (heq ▸ howned.1)
    refine ⟨hne.symm, ?_⟩
    intro f hf hf'
    obtain ⟨k, hk, rfl⟩ := mem_pageRange.mp (h.mem_frames hf)
    have hold : (space.rgn q) = s.space.rgn q := by
      rw [h.rgn, Function.update_of_ne hne]
    refine E.phys.fresh h.pick k hk (howned.2 _ ?_)
    rw [← hold]
    exact hf'

/-- A loaded region fits its part of the low half. -/
theorem Loaded.fits (h : Loaded E old space r virt n growup phys) (lo hi : Nat)
    (hvirt : virt = if growup then lo else hi) (hn : n % pageSize = 0) (hroom : lo + n ≤ hi)
    (hword : hi < wordSize) (hlo : lo % pageSize = 0) (hhi : hi % pageSize = 0) :
    (space.rgn r).growup = growup ∧ Fits lo hi (space.rgn r) := by
  rw [h.region]
  have hspans : Spans lo hi ⟨virt, n, oneBlock (if growup then virt else virt - n) phys n, growup⟩ :=
    ⟨hvirt, hn, hroom⟩
  have hlower := hspans.lower_eq hword
  have hupper := hspans.upper_eq hword
  have hone : ∀ b ∈ oneBlock (if growup then virt else virt - n) phys n,
      b = ⟨if growup then virt else virt - n, phys, n⟩ := by
    intro b hb
    rw [oneBlock] at hb
    split at hb
    · exact List.mem_singleton.mp hb
    · cases hb
  have hwhole : (⟨if growup then virt else virt - n, phys, n⟩ : Block).Whole := by
    refine ⟨?_, E.phys.paged h.pick, hn, ?_, E.phys.fits h.pick⟩
    · dsimp only
      rw [hvirt]
      split
      · exact hlo
      · unfold pageSize at *
        omega
    · dsimp only
      rw [hvirt]
      split <;> omega
  refine ⟨rfl, hspans, ?_, ?_, ?_⟩
  · intro b hb
    rw [hone b hb]
    exact hwhole
  · intro b hb
    rw [hone b hb, hlower, hupper]
    dsimp only
    rw [hvirt]
    split <;> omega
  · rw [oneBlock]
    dsimp only
    split
    · exact List.pairwise_singleton _ _
    · exact List.Pairwise.nil

end Loaded

/-- A thread with regions of its own joins the ring. -/
theorem inv_enlist (h : Inv cut s l) (ht : t ∉ l) (hok : ThreadOk cut s t)
    (hspare : ∀ r, Owns s t r → Spare s l r) (he : Enlisted s s' t l) :
    Inv cut s' (insertSecond t l) := by
  have hstack := he.stackOf_eq
  have hcode := he.codeOf_eq
  have howns : ∀ u r, Owns s' u r ↔ Owns s u r := by
    intro u r
    rw [Owns, hstack, hcode, Owns]
  refine ⟨h.split, he.ring, fun u hu => ?_, fun u hu v hv hne r q hr hq => ?_, fun hne => ?_, ?_, ?_,
    ?_, he.lock, ?_⟩
  · have hold : ThreadOk cut s u := by
      rcases mem_insertSecond.mp hu with rfl | hu
      · exact hok
      · exact h.each u hu
    refine threadOk_congr hold (he.parent u) (hstack u) (hcode u) ?_ ?_ ?_
    · intro r _
      rw [he.space]
    · rw [he.space]
      exact fun _ hx => hx
    · rw [he.space]
      exact fun _ hx => hx
  · rw [howns] at hr hq
    rw [he.space]
    rcases mem_insertSecond.mp hu with hu | hu
    · rcases mem_insertSecond.mp hv with hv | hv
      · exact absurd (hu.trans hv.symm) hne
      · exact (hspare r (hu ▸ hr)).apart v hv q hq
    · rcases mem_insertSecond.mp hv with hv | hv
      · obtain ⟨hqr, hfr⟩ := (hspare q (hv ▸ hq)).apart u hu r hr
        exact ⟨hqr.symm, fun f hf hf' => hfr f hf' hf⟩
      · exact h.apart u hu v hv hne r q hr hq
  · rw [he.cur] at hne ⊢
    exact mem_insertSecond.mpr (.inr (h.cur hne))
  · rw [he.space, he.cur, hstack, hcode]
    exact h.swapped
  · rw [he.space, he.cur, hstack]
    exact h.high
  · rw [he.space, he.cur, hcode]
    exact h.low
  · rw [he.space]
    exact h.refused

/-- What `schedule` makes: the thread, its stack and the words on it. -/
structure Scheduled (E : Env) (I : Image) (s s' : State) (t : Ptr) (par start : Nat)
    (extv : List Nat) (kthrd : Bool) (l : List Ptr) (space : Space) (stack phys : Nat) : Prop where
  ptr    : t = E.kalloc.pick s.space.used
  loaded : Loaded E (s.space.alloc E).1 space stack lowHalfTop (2 * pageSize) false phys
  mem    : space.mem = s.space.mem.blit (phys + (pageSize - 8 * (6 + extv.length)))
    ((startFrame I start extv kthrd).flatMap (leBytes 8))
  listed : Enlisted ({ s with space := space }.modifyThr t
    (newThread par stack extv.length kthrd)) s' t l

/-- The code of a process that has no thread yet. -/
def Unstarted (cut : Nat) (s : State) (l : List Ptr) (par : Ptr) : Prop :=
  par ∈ s.space.used ∧ ((s.proc par).code ≠ NULL → Spare s l (s.proc par).code ∧
    (s.space.rgn (s.proc par).code).growup = true ∧
    Fits uspaceBot cut (s.space.rgn (s.proc par).code))

/-- A process that is not started stays so. -/
theorem unstarted_quiet (h : Inv cut s l) {par : Ptr} (hpar : Unstarted cut s l par) (hq : Quiet s s') :
    Unstarted cut s' l par := by
  refine ⟨hq.used _ hpar.1, ?_⟩
  intro hne
  rw [hq.code par hpar.1] at hne ⊢
  obtain ⟨hspare, hup, hfits⟩ := hpar.2 hne
  rw [hq.rgn _ hspare.used]
  exact ⟨spare_quiet h hspare hq, hup, hfits⟩

/-- What a spawn needs of the state. -/
structure Base (s : State) (l : List Ptr) : Prop where
  ring    : OnRing s l
  used    : ∀ t ∈ l, t ∈ s.space.used
  low     : Low s.space
  swapped : ∀ r ∈ s.space.swapped, r ∈ s.space.used
  lock    : s.schedulerLock = .UNLOCKED

/-- The invariant has what spawning needs. -/
theorem Inv.base (h : Inv cut s l) : Base s l :=
  ⟨h.ring, fun t ht => (h.each t ht).used, h.lowSpace, fun _ hr => h.swapped_used hr, h.lock⟩

theorem Base.quiet (h : Base s l) (hq : Quiet s s') : Base s' l := by
  refine ⟨onRing_congr h.ring hq.head fun t ht => (hq.thr t (h.used t ht)).1,
    fun t ht => hq.used t (h.used t ht), fun y hy => ?_, fun y hy => ?_, hq.lock.trans h.lock⟩
  · rw [hq.swapped] at hy
    rw [hq.rgn y (h.swapped y hy)]
    exact h.low y hy
  · rw [hq.swapped] at hy
    exact hq.used y (h.swapped y hy)

/-- `schedule` returns, unless pages run out. -/
theorem schedule_spec (h : Base s l) {par start : Nat} {extv : List Nat}
    (hextv : extv.length ≤ 100) {kthrd : Bool} :
    Returns (schedule E I par start extv kthrd s) fun x =>
      ∃ space stack phys, Scheduled E I s x.1 x.2 par start extv kthrd l space stack phys := by
  have halloc : Quiet s { s with space := (s.space.alloc E).1 } := alloc_quiet s
  have h₁ := h.quiet halloc
  rw [schedule_eq]
  dsimp only
  obtain ⟨t, hdef⟩ : ∃ t, t = E.kalloc.pick s.space.used := ⟨_, rfl⟩
  have htnew : t ∉ s.space.used := by
    rw [hdef]
    exact E.kalloc.fresh _
  have htnull : t ≠ NULL := by
    rw [hdef]
    exact E.kalloc.ne_null _
  refine returns_bind (loadStack_spec hextv kthrd h₁.low
    (fun hmem => E.kalloc.fresh _ (h₁.swapped _ hmem))) ?_
  intro ⟨space, stack⟩ ⟨phys, hloaded, hmem⟩
  dsimp only at hloaded hmem ⊢
  have hq₂ : Quiet { s with space := (s.space.alloc E).1 } { s with space := space } :=
    hloaded.quiet
  show Returns (enlist par (E.kalloc.pick s.space.used) (State.modifyThr { s with space := space }
    (E.kalloc.pick s.space.used) (newThread par stack extv.length kthrd)) >>= fun s' =>
      Except.ok (s', E.kalloc.pick s.space.used)) _
  rw [← hdef]
  have h₃ := h.quiet ((halloc.trans hq₂).modifyThr htnew
    (newThread par stack extv.length kthrd))
  obtain ⟨s', hs', hlisted⟩ := enlist_spec par h₃.ring (fun hmem => htnew (h.used t hmem))
    htnull h₃.lock
  rw [hs', ok_bind]
  exact ⟨space, stack, phys, hdef, hloaded, hmem, hlisted⟩

section Scheduled

variable {par start : Nat} {extv : List Nat} {kthrd : Bool} {space : Space} {stack phys : Nat}

/-- Before the new thread is listed, nothing refers to it. -/
theorem Scheduled.quiet (h : Scheduled E I s s' t par start extv kthrd l space stack phys) :
    Quiet s ({ s with space := space }.modifyThr t (newThread par stack extv.length kthrd)) := by
  have halloc : Quiet s { s with space := (s.space.alloc E).1 } := alloc_quiet s
  have hload : Quiet { s with space := (s.space.alloc E).1 } { s with space := space } :=
    h.loaded.quiet
  refine (halloc.trans hload).modifyThr ?_ _
  rw [h.ptr]
  exact E.kalloc.fresh _

/-- A new thread is not null. -/
theorem Scheduled.nonnull (h : Scheduled E I s s' t par start extv kthrd l space stack phys) :
    t ≠ NULL := by
  rw [h.ptr]
  exact E.kalloc.ne_null _

/-- The new thread has the new stack and the code of its process. -/
theorem Scheduled.regions (h : Scheduled E I s s' t par start extv kthrd l space stack phys) :
    s'.space = space ∧ stackOf s' t = stack ∧ (s'.thr t).parent = par ∧
      codeOf s' t = (s.proc par).code ∧
      (s'.thr t).rsp = lowHalfTop - pageSize - 8 * (6 + extv.length) := by
  have hthr : ({ s with space := space }.modifyThr t (newThread par stack extv.length kthrd)).thr t =
      newThread par stack extv.length kthrd (s.thr t) := Function.update_self ..
  have hparent : (s'.thr t).parent = par := by
    rw [h.listed.parent, hthr]
    rfl
  refine ⟨h.listed.space, ?_, hparent, ?_, ?_⟩
  · rw [stackOf_ne h.nonnull, h.listed.stack, hthr]
    rfl
  · rw [codeOf_ne h.nonnull, hparent, h.listed.code]
    rfl
  · rw [h.listed.rsp, hthr]
    rfl

/-- Scheduling a thread keeps the invariant. -/
theorem Scheduled.inv (hinv : Inv cut s l) (hpar : Unstarted cut s l par)
    (h : Scheduled E I s s' t par start extv kthrd l space stack phys) :
    Inv cut s' (insertSecond t l) := by
  have htnew : t ∉ s.space.used := by
    rw [h.ptr]
    exact E.kalloc.fresh _
  have htl : t ∉ l := fun hmem => htnew (hinv.each t hmem).used
  have halloc : Quiet s { s with space := (s.space.alloc E).1 } := alloc_quiet s
  have h₁ := inv_quiet hinv halloc
  have hpar₁ := unstarted_quiet hinv hpar halloc
  have hload : Quiet { s with space := (s.space.alloc E).1 } { s with space := space } :=
    h.loaded.quiet
  have hspare : Spare { s with space := space } l stack :=
    Loaded.spare (s := { s with space := (s.space.alloc E).1 }) h₁ h.loaded
  have hfits := h.loaded.fits cut lowHalfTop rfl (by decide) hinv.split.high (by decide)
    hinv.split.paged (by decide)
  have htused : t ∈ space.used := by
    rw [h.loaded.used]
    refine List.mem_cons_of_mem _ ?_
    rw [h.ptr]
    exact List.mem_cons_self
  have hq₃ := h.quiet
  have h₃ := inv_quiet hinv hq₃
  have hpar₃ := unstarted_quiet hinv hpar hq₃
  have hlisted := h.listed
  have hthr : ({ s with space := space }.modifyThr t (newThread par stack extv.length kthrd)).thr t =
      newThread par stack extv.length kthrd (s.thr t) := Function.update_self ..
  generalize hs₃ : State.modifyThr { s with space := space } t
    (newThread par stack extv.length kthrd) = s₃ at *
  have hspace₃ : s₃.space = space := by
    rw [← hs₃]
    rfl
  have hstackOf : stackOf s₃ t = stack := by
    rw [stackOf_ne h.nonnull, hthr]
    rfl
  have hparent : (s₃.thr t).parent = par := by
    rw [hthr]
    rfl
  have hcodeOf : codeOf s₃ t = (s₃.proc par).code := by
    rw [codeOf_ne h.nonnull, hparent]
  have hspare₃ : Spare s₃ l stack := by
    refine ⟨hspace₃ ▸ hspare.used, hspare.ne, hspace₃ ▸ hspare.frames, ?_⟩
    intro u hu q howns
    rw [quiet_owns hinv hq₃ hu] at howns
    rw [hspace₃]
    exact hspare.apart u hu q ((quiet_owns hinv (halloc.trans hload) hu).mpr howns)
  have hall : ∀ r, Owns s₃ t r → Spare s₃ l r := by
    intro r ⟨hne, hr⟩
    rcases hr with hr | hr
    · rw [hr, hstackOf]
      exact hspare₃
    · rw [hr, hcodeOf] at hne ⊢
      exact (hpar₃.2 hne).1
  have hcodeNew : (s.proc par).code ≠ stack := by
    intro heq
    have hne : (s.proc par).code ≠ NULL := heq ▸ hspare.ne
    exact h.loaded.new (heq ▸ (hpar₁.2 hne).1.used)
  have hok : ThreadOk cut s₃ t := by
    refine ⟨hspace₃ ▸ htused, hparent ▸ hpar₃.1, fun r hr => ⟨(hall r hr).used, (hall r hr).frames⟩,
      hstackOf ▸ hspare.ne, ?_, ?_, fun hne => ?_⟩
    · rw [hstackOf, hcodeOf, hq₃.code par hpar.1]
      exact hcodeNew.symm
    · rw [hstackOf, hspace₃]
      exact hfits
    · rw [hcodeOf] at hne ⊢
      exact (hpar₃.2 hne).2
  exact inv_enlist h₃ htl hok hall hlisted

end Scheduled

-- ---------------------------------------------------------------------------
-- kspawn and uspawn
-- ---------------------------------------------------------------------------

/-- `add_process` changes links of processes and nothing else. -/
theorem addProcess_spec (p : Ptr) (hlock : s.schedulerLock = .UNLOCKED) :
    ∃ proc head, addProcess p s = .ok { s with proc := proc, headProc := head } ∧
      ∀ q, (proc q).code = (s.proc q).code := by
  have hget : s.lock = .ok { s with schedulerLock := .LOCKED } := by
    rw [State.lock, hlock]
    rfl
  rw [addProcess, hget, ok_bind]
  dsimp only
  by_cases hhead : s.headProc = NULL
  · rw [if_pos hhead]
    refine ⟨Function.update s.proc p { s.proc p with next := p }, p, ?_, ?_⟩
    · rw [State.unlock, ← hlock]
      rfl
    · intro q
      exact modifyProc_field Process.code (f := fun v => { v with next := p }) (fun _ => rfl) p q s
  · rw [if_neg hhead]
    refine ⟨((s.modifyProc p fun v => { v with next := (s.proc s.headProc).next }).modifyProc
      s.headProc fun v => { v with next := p }).proc, s.headProc, ?_, fun q => ?_⟩
    · rw [State.unlock, ← hlock]
      rfl
    · exact (modifyProc_field Process.code (f := fun v => { v with next := p }) (fun _ => rfl)
        s.headProc q (s.modifyProc p fun v => { v with next := (s.proc s.headProc).next })).trans
          (modifyProc_field Process.code
            (f := fun v => { v with next := (s.proc s.headProc).next }) (fun _ => rfl) p q s)

/-- Changing the processes but for their code is quiet. -/
theorem quiet_procs {proc : Ptr → Process} (head : Ptr)
    (hcode : ∀ q, (proc q).code = (s.proc q).code) :
    Quiet s { s with proc := proc, headProc := head } :=
  ⟨fun _ hx => hx, fun _ _ => ⟨rfl, rfl, rfl⟩, fun _ _ => rfl, fun q _ => hcode q, fun _ _ => rfl,
    fun _ hf => hf,
    fun _ _ _ _ _ => rfl, fun _ _ => rfl, rfl, rfl, rfl, rfl, rfl⟩

/-- The new process of a spawn is not in use before. -/
theorem createProcess_spec (s : State) :
    (createProcess E s).2 = E.kalloc.pick s.space.used ∧ Quiet s (createProcess E s).1 ∧
      (createProcess E s).1.space = (s.space.alloc E).1 := by
  refine ⟨rfl, ?_, rfl⟩
  have halloc : Quiet s { s with space := (s.space.alloc E).1 } := alloc_quiet s
  exact halloc.modifyProc (f := fun v => { v with
    first := NULL
    parent := if s.curThrd ≠ NULL then (s.thr s.curThrd).parent else NULL })
    (.inl (E.kalloc.fresh s.space.used))

/-- What `kspawn` makes: a process without code, then its thread. The state `mid` is
the one in between. -/
structure Kspawned (E : Env) (I : Image) (s s' : State) (func : Nat) (l : List Ptr) (mid : State)
    (p t stack phys : Nat) (space : Space) : Prop where
  quiet  : Quiet s mid
  used   : p ∈ mid.space.used
  own    : (mid.proc p).code = NULL
  thread : Scheduled E I mid s' t p func [] true l space stack phys

/-- `kspawn` returns with a process of its own and a thread. -/
theorem kspawn_spec (h : Base s l) (func : Nat) :
    Returns (kspawn E I func s) fun x =>
      ∃ mid t stack phys space, Kspawned E I s x.1 func l mid x.2 t stack phys space := by
  obtain ⟨hp, hq₁, hspace⟩ := createProcess_spec (E := E) s
  unfold kspawn
  generalize createProcess E s = x at *
  obtain ⟨s₁, p⟩ := x
  dsimp only at hp hq₁ hspace ⊢
  have hpnew : p ∉ s.space.used := by
    rw [hp]
    exact E.kalloc.fresh _
  have hq₂ : Quiet s (s₁.modifyProc p fun v => { v with code := NULL }) :=
    hq₁.modifyProc (.inl hpnew)
  have hnone : ((s₁.modifyProc p fun v => { v with code := NULL }).proc p).code = NULL := by
    show (Function.update s₁.proc p _ p).code = NULL
    rw [Function.update_self]
  have hpused : p ∈ (s₁.modifyProc p fun v => { v with code := NULL }).space.used := by
    show p ∈ s₁.space.used
    rw [hspace, hp]
    exact List.mem_cons_self
  generalize s₁.modifyProc p (fun v => { v with code := NULL }) = s₂ at *
  have h₂ := h.quiet hq₂
  obtain ⟨proc, head, hadd, hcode⟩ := addProcess_spec p h₂.lock
  rw [hadd, ok_bind]
  have hq₃ := quiet_procs head hcode
  refine returns_bind (schedule_spec (h₂.quiet hq₃) (by decide)) ?_
  intro ⟨s', t⟩ ⟨space, stack, phys, hsch⟩
  exact ⟨{ s₂ with proc := proc, headProc := head }, t, stack, phys, space, hq₂.trans hq₃, hpused,
    (hcode p).trans hnone, hsch⟩

/-- So it keeps the invariant. -/
theorem Kspawned.inv {func p stack phys : Nat} {mid : State} {space : Space} (hinv : Inv cut s l)
    (h : Kspawned E I s s' func l mid p t stack phys space) : Inv cut s' (insertSecond t l) := by
  refine h.thread.inv (inv_quiet hinv h.quiet) ⟨h.used, fun hne => absurd h.own hne⟩

/-- What `uspawn` makes: a process with its code in memory, then its thread. The state
`mid` is the one in between. -/
structure Uspawned (E : Env) (I : Image) (s s' : State) (data : List UInt8) (bsz entry : Nat)
    (argv : List CStr) (l : List Ptr) (mid : State) (p code n phys : Nat) (t stack physS : Nat)
    (space : Space) : Prop where
  quiet  : Quiet s mid
  new    : p ∉ s.space.used
  used   : p ∈ mid.space.used
  own    : (mid.proc p).code = code
  size   : n = align (wholeSize I data.length bsz argv) pageSize ∧ n % pageSize = 0 ∧
    wholeSize I data.length bsz argv ≤ n ∧ n + uspaceBot < wordSize
  loaded : Loaded E (s.space.alloc E).1 mid.space code uspaceBot n true phys
  mem    : mid.space.mem = imageMem I data bsz argv phys s.space.mem
  thread : Scheduled E I mid s' t p (data.length + bsz + uspaceBot)
    [entry, argvOffset I data.length bsz + uspaceBot, argv.length] false l space stack physS

/-- `uspawn` returns, unless pages run out. -/
theorem uspawn_spec (h : Base s l) {data : List UInt8} {bsz : Nat} {argv : List CStr}
    (hsize : wholeSize I data.length bsz argv < wordSize) (entry : Nat) :
    Returns (uspawn E I data bsz entry argv s) fun x =>
      ∃ mid code n phys t stack physS space,
        Uspawned E I s x.1 data bsz entry argv l mid x.2 code n phys t stack physS space := by
  obtain ⟨hp, hq₁, hspace⟩ := createProcess_spec (E := E) s
  rw [uspawn_eq]
  generalize createProcess E s = x at *
  obtain ⟨s₁, p⟩ := x
  dsimp only at hp hq₁ hspace ⊢
  have h₁ := h.quiet hq₁
  have hpnew : p ∉ s.space.used := by
    rw [hp]
    exact E.kalloc.fresh _
  refine returns_bind (loadCode_spec hsize h₁.low
    (fun hmem => E.kalloc.fresh _ (h₁.swapped _ hmem))) ?_
  intro ⟨space, code, argvt⟩ ⟨phys, n, hn, hpaged, hle, hsmall, hloaded, hargvt, hmem⟩
  dsimp only at hloaded hargvt hmem ⊢
  have hq₂ : Quiet s (State.modifyProc { s₁ with space := space } p fun v =>
      { v with code := code }) := by
    have hload : Quiet s₁ { s₁ with space := space } := hloaded.quiet
    exact (hq₁.trans hload).modifyProc (.inl hpnew)
  have hcode : ((State.modifyProc { s₁ with space := space } p fun v =>
      { v with code := code }).proc p).code = code := by
    show (Function.update s₁.proc p _ p).code = code
    rw [Function.update_self]
  have hspace₂ : (State.modifyProc { s₁ with space := space } p fun v =>
      { v with code := code }).space = space := rfl
  generalize State.modifyProc { s₁ with space := space } p (fun v => { v with code := code }) = s₂
    at *
  have h₂ := h.quiet hq₂
  obtain ⟨proc, head, hadd, hcodes⟩ := addProcess_spec p h₂.lock
  rw [hadd, ok_bind]
  have hq₃ := quiet_procs head hcodes
  have h₃ := h₂.quiet hq₃
  rw [hargvt]
  refine returns_bind (schedule_spec h₃ (by simp)) ?_
  intro ⟨s', t⟩ ⟨space', stack, physS, hsch⟩
  refine ⟨{ s₂ with proc := proc, headProc := head }, code, n, phys, t, stack, physS, space',
    hq₂.trans hq₃, hpnew, ?_, (hcodes p).trans hcode, ⟨hn, hpaged, hle, hsmall⟩, ?_, ?_, hsch⟩
  · show p ∈ s₂.space.used
    rw [hspace₂, hloaded.used, hspace, hp]
    exact List.mem_cons_of_mem _ List.mem_cons_self
  · show Loaded E _ s₂.space code uspaceBot n true phys
    rw [hspace₂, ← hspace]
    exact hloaded
  · show s₂.space.mem = _
    rw [hspace₂, hmem, hspace]
    rfl

/-- A spawned process whose image ends at the cut or below keeps the invariant. -/
theorem Uspawned.inv {data : List UInt8} {bsz entry : Nat} {argv : List CStr} {mid : State}
    {p code n phys stack physS : Nat} {space : Space} (hinv : Inv cut s l)
    (hend : uspaceBot + wholeSize I data.length bsz argv ≤ cut)
    (h : Uspawned E I s s' data bsz entry argv l mid p code n phys t stack physS space) :
    Inv cut s' (insertSecond t l) := by
  have halloc : Quiet s { s with space := (s.space.alloc E).1 } := alloc_quiet s
  have h₁ := inv_quiet hinv halloc
  have hmid := inv_quiet hinv h.quiet
  have hload : Quiet s { s with space := mid.space } :=
    halloc.trans (Loaded.quiet (s := { s with space := (s.space.alloc E).1 }) h.loaded)
  have hspare : Spare { s with space := mid.space } l code :=
    Loaded.spare (s := { s with space := (s.space.alloc E).1 }) h₁ h.loaded
  obtain ⟨hn, hpaged, hle, hsmall⟩ := h.size
  have hcutp := hinv.split.paged
  have hword := hinv.split.word
  have hroom := (align_page (x := wholeSize I data.length bsz argv) (cut - uspaceBot)
    (by omega) (by unfold uspaceBot pageSize at *; omega) (by omega)).2.1
  rw [← hn] at hroom
  have hfits := h.loaded.fits uspaceBot cut rfl hpaged
    (by have habove := hinv.split.above; omega) hword (by decide) hcutp
  refine h.thread.inv hmid ⟨h.used, ?_⟩
  intro _
  rw [h.own]
  refine ⟨⟨hspare.used, hspare.ne, hspare.frames, ?_⟩, hfits⟩
  intro u hu q howns
  rw [quiet_owns hinv h.quiet hu] at howns
  exact hspare.apart u hu q ((quiet_owns hinv hload hu).mpr howns)

end Frosk.Scheduler
