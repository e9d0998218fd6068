import Mathlib.Tactic
import Frosk.Scheduler.Isolation

/-!
# Scheduler: page faults

Over the same runs, what a page fault does to the regions of the current thread.

* A write below `LOW_HALF_TOP` to what is not present gets a block of its own, in
  the one of the two regions that has this part of the low half, and both regions
  stay well formed.
* A write at or above `LOW_HALF_TOP` is presumed to be one to the stack. The
  distance from the end of the stack wraps to a size that is far too large, the
  lower end of the stack comes to be above its upper end, and from then on `grow`
  takes every write below the stack for a wish to shrink it.

Main results: `demand_paging`, `bad_write_harms`.
-/

namespace Frosk.Scheduler

open Lib Regions

/-- The block has the page. -/
def InBlock (page : Nat) (b : Block) : Bool := b.virt ≤ page ∧ page < b.virt + b.size

/-- The region is a range of its size, without a wrap, and has its blocks in it. -/
structure WellFormed (r : Region) : Prop where
  range  : r.lower + r.size = r.upper
  paged  : ∀ b ∈ r.blocks, b.virt % pageSize = 0 ∧ b.phys % pageSize = 0 ∧ b.size % pageSize = 0
  inside : ∀ b ∈ r.blocks, r.lower ≤ b.virt ∧ b.virt + b.size ≤ r.upper
  apart  : Apart r.blocks

/-- The regions of the current thread. -/
def curStack (s : State) : Region := s.space.rgn (stackOf s s.curThrd)

def curCode (s : State) : Region := s.space.rgn (codeOf s s.curThrd)

/-- One block of the current thread has the page, which is mapped to its frame. -/
def Backed (s : State) (page : Nat) : Prop :=
  ∃ b, ((curStack s).blocks ++ (curCode s).blocks).filter (InBlock page) = [b] ∧
    s.space.map page = (b.phys + (page - b.virt)) ||| 7

/-- What holds after a page fault at `page`. -/
structure Paged (s : State) (page : Nat) : Prop where
  backed : Backed s page
  stack  : WellFormed (curStack s)
  code   : WellFormed (curCode s)
  above  : middle ≤ (curStack s).lower ∧ (curStack s).upper = lowHalfTop
  below  : (curCode s).lower = uspaceBot ∧ (curCode s).upper ≤ middle

section Faults

variable {E : Env} {I : Image} {s s' : State} {l : List Ptr}

/-- A region that fits is well formed. -/
theorem Fits.wellFormed {lo hi : Nat} {r : Region} (h : Fits lo hi r) (hword : hi < wordSize) :
    WellFormed r :=
  ⟨(h.bounds hword).2.1,
    fun b hb => ⟨(h.whole b hb).virt, (h.whole b hb).phys, (h.whole b hb).size⟩, h.inside, h.apart⟩

/-- `InBlock` tests for the page of a block. -/
theorem inBlock_iff {page : Nat} {b : Block} (hb : b.virt % pageSize = 0)
    (hpage : page % pageSize = 0) : InBlock page b = true ↔ b.HasPage page := by
  rw [InBlock, decide_eq_true_iff, Block.HasPage]
  unfold pageSize at *
  omega

/-- A page that no block has is new. -/
theorem filter_inBlock_nil {page : Nat} {bs : List Block} (hbs : ∀ b ∈ bs, b.virt % pageSize = 0)
    (hpage : page % pageSize = 0) (hnew : ∀ b ∈ bs, ¬ b.HasPage page) :
    bs.filter (InBlock page) = [] := by
  rw [List.filter_eq_nil_iff]
  intro b hb hinside
  exact hnew b hb ((inBlock_iff (hbs b hb) hpage).mp hinside)

/-- A page starts at a page. -/
theorem floor_paged (a : Nat) : floor a pageSize % pageSize = 0 := by
  rw [floor_eq]
  unfold pageSize
  omega

/-- The served page has the new block and no other. -/
theorem Served.backed {space : Space} {r page phys lo hi n : Nat}
    (hserved : Served E s.space space r page phys lo hi n)
    (hr : r = stackOf s s.curThrd ∨ r = codeOf s s.curThrd)
    (hdiffer : stackOf s s.curThrd ≠ codeOf s s.curThrd) (hpage : page % pageSize = 0)
    (hpaged : ∀ q, q = stackOf s s.curThrd ∨ q = codeOf s s.curThrd →
      ∀ b ∈ (s.space.rgn q).blocks, b.virt % pageSize = 0)
    (hnew : ∀ q, q = stackOf s s.curThrd ∨ q = codeOf s s.curThrd →
      ∀ b ∈ (s.space.rgn q).blocks, ¬ b.HasPage page) :
    Backed { s with space := space } page := by
  have hmap : space.map page = phys ||| 7 := by
    rw [hserved.gained.eq]
    exact Function.update_self ..
  have hnil : ∀ q, q = stackOf s s.curThrd ∨ q = codeOf s s.curThrd →
      (s.space.rgn q).blocks.filter (InBlock page) = [] :=
    fun q hq => filter_inBlock_nil (hpaged q hq) hpage (hnew q hq)
  have hinside : InBlock page ⟨page, phys, pageSize⟩ = true := by
    rw [InBlock, decide_eq_true_iff]
    unfold pageSize
    dsimp only
    omega
  -- the blocks of the served region and of the other one
  have hself : (space.rgn r).blocks.filter (InBlock page) = [⟨page, phys, pageSize⟩] := by
    rw [hserved.rgn_self, List.filter_cons_of_pos hinside, hnil r hr]
  have hother : ∀ q, q ≠ r → q = stackOf s s.curThrd ∨ q = codeOf s s.curThrd →
      (space.rgn q).blocks.filter (InBlock page) = [] := by
    intro q hne hq
    rw [hserved.rgn_ne hne]
    exact hnil q hq
  refine ⟨⟨page, phys, pageSize⟩, ?_, ?_⟩
  · show ((space.rgn (stackOf s s.curThrd)).blocks ++
      (space.rgn (codeOf s s.curThrd)).blocks).filter _ = _
    rw [List.filter_append]
    rcases hr with rfl | rfl
    · rw [hself, hother _ hdiffer.symm (.inr rfl), List.append_nil]
    · rw [hself, hother _ hdiffer (.inl rfl), List.nil_append]
  · show space.map page = _
    rw [hmap, Nat.sub_self, Nat.add_zero]

/-- A user thread in order has well formed regions in their parts. -/
theorem Inv.paged (h : Inv middle s l) (huser : codeOf s s.curThrd ≠ NULL) {page : Nat}
    (hbacked : Backed s page) : Paged s page := by
  have hcur : s.curThrd ≠ NULL := by
    intro heq
    rw [heq] at huser
    exact huser rfl
  have hok := h.each _ (h.cur hcur)
  obtain ⟨hdown, hstack⟩ := hok.stack
  obtain ⟨hup, hcode⟩ := hok.code huser
  have hsb := hstack.bounds (by decide)
  have hcb := hcode.bounds (by decide)
  refine ⟨hbacked, Fits.wellFormed hstack (by decide), Fits.wellFormed hcode (by decide), ?_, ?_⟩
  · refine ⟨hsb.1, ?_⟩
    rw [curStack, hstack.upper_eq (by decide), hdown, if_neg (by simp)]
  · refine ⟨?_, hcb.2.2⟩
    rw [curCode, hcode.lower_eq (by decide), hup, if_pos rfl]

/-- A fault in a region pages the address in and keeps the invariant. -/
theorem pageFault_paged (h : Inv middle s l) {cr2 : Nat} (hf : UserFault s cr2) :
    Returns (pageFault E userWrite cr2 s) fun s' =>
      Inv middle s' l ∧ Paged s' (floor cr2 pageSize) := by
  have hok := h.each _ (h.cur hf.cur)
  refine returns_mono (pageFault_inv h hf (Nat.lt_or_ge cr2 middle)) ?_
  rintro s' ⟨hinv, space, n, phys, rfl, hserved⟩
  have hpaged : ∀ q, q = stackOf s s.curThrd ∨ q = codeOf s s.curThrd →
      ∀ b ∈ (s.space.rgn q).blocks, b.virt % pageSize = 0 := by
    rintro q (rfl | rfl) b hb
    · exact (hok.stack.2.whole b hb).virt
    · exact ((hok.code hf.user).2.whole b hb).virt
  refine ⟨hinv, hinv.paged hf.user ?_⟩
  rcases hserved with hserved | hserved
  · exact hserved.backed (.inl rfl) hok.differ (floor_paged cr2) hpaged (UserFault.new h hf)
  · exact hserved.backed (.inr rfl) hok.differ (floor_paged cr2) hpaged (UserFault.new h hf)

/-- Over every run of legal calls, each page fault returns, and gives its page a
block of one of the two regions, which stay well formed in their parts. -/
theorem demand_paging (hboot : Boot s) {ops : List Op}
    (hlegal : Whenever (Step E I) (Legal E I) s ops) :
    Along (Step E I) (fun _ a s' _ => ∀ cr2, a = .pageFault cr2 → Paged s' (floor cr2 pageSize))
      s ops := by
  have hstep : ∀ s a, (∃ l, Inv middle s l) → Legal E I s a →
      ∃ s' b, Step E I s a s' b ∧
        (∀ cr2, a = .pageFault cr2 → Paged s' (floor cr2 pageSize)) ∧ ∃ l, Inv middle s' l := by
    intro s a ⟨l, hinv⟩ hop
    cases a with
    | pageFault cr2 =>
      obtain ⟨s', hcall, hinv', hpaged⟩ :=
        exists_of_returns (pageFault_paged (E := E) hinv hop.1) hop.2
      refine ⟨s', (), ⟨0, hcall⟩, ?_, l, hinv'⟩
      rintro _ ⟨⟩
      exact hpaged
    | _ =>
      obtain ⟨s', l', hcall, hinv', _⟩ := call_inv hinv hop.at_middle
      exact ⟨s', (), hcall, nofun, l', hinv'⟩
  exact along_of_invariant hstep ⟨[], hboot.inv isCut_middle⟩ hlegal

/-- A process reaches far past its image, far down its stack, and then in between. -/
theorem demand_paging_of_five :
    Along (Step smallEnv smallImage)
      (fun _ a s' _ => ∀ cr2, a = .pageFault cr2 → Paged s' (floor cr2 pageSize)) bootState
      [.uspawn [0x90, 0xC3] 8 0x200000 [], .yield 0, .pageFault 0x409123,
        .pageFault 0x3FFFFFFFFFFF, .pageFault 0x400000000000, .pageFault 0x7FFFFFFF0008,
        .pageFault 0x300000] := by
  refine demand_paging bootState_boot (whenever_of_checkRun (call_computes 10) ?_)
  decide +kernel

-- ---------------------------------------------------------------------------
-- Writes to the high half
-- ---------------------------------------------------------------------------

/-- A write of the current user thread to a canonical address from `LOW_HALF_TOP`
on that is not present. -/
structure BadWrite (s : State) (cr2 : Nat) : Prop where
  user      : codeOf s s.curThrd ≠ NULL
  canonical : highHalfBot ≤ cr2 ∧ cr2 < wordSize
  absent    : s.space.map (floor cr2 pageSize) % 2 = 0

/-- The fault leaves the regions well formed, and every legal fault after it is
served. -/
def Unharmed (E : Env) (s : State) (cr2 : Nat) : Prop :=
  ∃ s', pageFault E userWrite cr2 s = .ok s' ∧ WellFormed (curStack s') ∧ WellFormed (curCode s') ∧
    ∀ cr2', UserFault s' cr2' → Supplied (pageFault E userWrite cr2' s') →
      ∃ s'', pageFault E userWrite cr2' s' = .ok s'' ∧ Backed s'' (floor cr2' pageSize)

/-- The fault turns the stack region over, and every legal fault in the part of the
stack fails an assertion. -/
def Harmed (E : Env) (s : State) (cr2 : Nat) : Prop :=
  ∃ s', pageFault E userWrite cr2 s = .ok s' ∧ (curStack s').upper < (curStack s').lower ∧
    ∀ cr2', UserFault s' cr2' → middle ≤ cr2' →
      pageFault E userWrite cr2' s' = .error .assertion

/-- The size that the stack gets from a write at `page`. -/
def wrappedSize (page : Nat) : Nat := lowHalfTop + (wordSize - page)

def turned (page : Nat) (r : Region) : Region := { r with size := wrappedSize page }

/-- The region turned by a wrong address reaches from its page to the top. -/
theorem turned_bounds {r : Region} (hdown : r.growup = false) (hvirt : r.virt = lowHalfTop)
    {page : Nat} (hpage : highHalfBot ≤ page ∧ page < wordSize) :
    (turned page r).lower = page ∧ (turned page r).upper = lowHalfTop := by
  constructor
  · show (if r.growup then r.virt else wsub r.virt (wrappedSize page)) = page
    rw [hdown, if_neg (by simp), hvirt]
    unfold wsub wrappedSize wordSize highHalfBot lowHalfTop at *
    omega
  · show (if r.growup then (r.virt + wrappedSize page) % wordSize else r.virt) = lowHalfTop
    rw [hdown, if_neg (by simp), hvirt]

/-- The distance to a page of the high half is a negative `long`, and is taken for
one below the stack. -/
theorem grow_wraps {r : Ptr} {m : Space} (hfits : Fits middle lowHalfTop (m.rgn r))
    (hdown : (m.rgn r).growup = false) {page : Nat} (hpage : page % pageSize = 0)
    (hhigh : highHalfBot ≤ page) (hword : page < wordSize) :
    grow r page m = .ok (m.modify r (turned page)) := by
  have hvirt := hfits.virt
  have hroom := hfits.room
  rw [hdown, if_neg (by simp)] at hvirt
  have hdiff : wsub page (m.rgn r).virt = page - lowHalfTop := by
    rw [hvirt]
    exact wsub_eq (hhigh.trans' (by decide)) hword
  have hneg : slong (page - lowHalfTop) ≤ 0 := by
    unfold slong wordSize highHalfBot lowHalfTop at *
    split <;> omega
  have hsize : wsub 0 (page - lowHalfTop) = wrappedSize page := by
    unfold wsub wrappedSize wordSize highHalfBot lowHalfTop at *
    omega
  have hlt : (m.rgn r).size < wrappedSize page := by
    unfold wrappedSize middle lowHalfTop wordSize at *
    omega
  have hpaged : wrappedSize page % pageSize = 0 := by
    unfold wrappedSize pageSize lowHalfTop wordSize at *
    omega
  unfold grow
  dsimp only
  rw [hdiff, hdown, if_neg (by simpa using hneg), if_neg (by simp)]
  simp only [Bool.false_eq_true, if_false]
  rw [hsize, if_pos hlt, align_paged hpaged]
  rfl

/-- A wish for a smaller stack fails. -/
theorem grow_smaller {r : Ptr} {m : Space} (hdown : (m.rgn r).growup = false)
    (hvirt : (m.rgn r).virt = lowHalfTop) {page : Nat} (hlt : page < lowHalfTop)
    (hsize : lowHalfTop - page ≤ (m.rgn r).size) : grow r page m = .error .assertion := by
  have hdiff : wsub page (m.rgn r).virt = wordSize - (lowHalfTop - page) := by
    rw [hvirt]
    unfold wsub wordSize lowHalfTop at *
    omega
  have hneg : slong (wordSize - (lowHalfTop - page)) ≤ 0 := by
    unfold slong wordSize lowHalfTop at *
    split <;> omega
  have hback : wsub 0 (wordSize - (lowHalfTop - page)) = lowHalfTop - page := by
    unfold wsub wordSize lowHalfTop at *
    omega
  unfold grow
  dsimp only
  rw [hdiff, hdown, if_neg (by simpa using hneg), if_neg (by simp)]
  simp only [Bool.false_eq_true, if_false]
  rw [hback, if_neg (by omega)]

/-- A write of the current thread that is in neither of its regions. -/
theorem pageFault_outside (hcur : s.curThrd ≠ NULL) {cr2 : Nat}
    (hstack : ¬ ((curStack s).lower ≤ floor cr2 pageSize ∧ floor cr2 pageSize < (curStack s).upper))
    (hcode : ¬ ((curCode s).lower ≤ floor cr2 pageSize ∧ floor cr2 pageSize < (curCode s).upper))
    (hhalf : middle ≤ floor cr2 pageSize) :
    pageFault E userWrite cr2 s = (do
      let space ← grow (stackOf s s.curThrd) (floor cr2 pageSize) s.space
      let (space, _) ← assure E (stackOf s s.curThrd) (floor cr2 pageSize) 7 space
      .ok { s with space := space }) := by
  have hs := stackOf_ne (s := s) hcur
  have hc := codeOf_ne (s := s) hcur
  rw [curStack] at hstack
  rw [curCode] at hcode
  rw [pageFault, if_neg (fun hne => hne rfl), ← hs, ← hc]
  dsimp only
  rw [assure_outside 7 hstack, ok_bind]
  dsimp only
  rw [if_neg (by simp), assure_outside 7 hcode, ok_bind]
  dsimp only
  rw [if_neg (by simp), if_neg (by unfold middle at hhalf; omega)]

/-- The page of an address is within the bounds. -/
theorem floor_bounds {a lo hi : Nat} (hlo : lo % pageSize = 0) (ha : lo ≤ a ∧ a < hi) :
    lo ≤ floor a pageSize ∧ floor a pageSize < hi := by
  rw [floor_eq]
  unfold pageSize at *
  omega

/-- A bad write harms in every state of the invariant. -/
theorem Inv.harmed (h : Inv middle s l) {cr2 : Nat} (hbad : BadWrite s cr2) : Harmed E s cr2 := by
  have hcur : s.curThrd ≠ NULL := by
    intro heq
    refine hbad.user ?_
    rw [heq]
    rfl
  have hok := h.each _ (h.cur hcur)
  obtain ⟨hdown, hfits⟩ := hok.stack
  have hcode := (hok.code hbad.user).2
  have hsb := hfits.bounds (by decide)
  have hcb := hcode.bounds (by decide)
  have hpage := floor_paged cr2
  obtain ⟨hhigh, hword⟩ := floor_bounds (by decide) hbad.canonical
  have hvirt : (curStack s).virt = lowHalfTop := by
    rw [curStack, hfits.virt, hdown, if_neg (by simp)]
  obtain ⟨hlower, hupper⟩ := turned_bounds (r := curStack s) hdown hvirt ⟨hhigh, hword⟩
  have hturned : lowHalfTop < highHalfBot := by decide
  have hmiddle : middle < lowHalfTop := by decide
  -- the state after the fault
  obtain ⟨s', hs'⟩ : ∃ s' : State, s' = { s with
    space := s.space.modify (stackOf s s.curThrd) (turned (floor cr2 pageSize)) } := ⟨_, rfl⟩
  have hstack' : curStack s' = turned (floor cr2 pageSize) (curStack s) := by
    rw [hs']
    exact modify_rgn ..
  have hcode' : curCode s' = curCode s := by
    rw [hs']
    exact Function.update_of_ne hok.differ.symm ..
  refine ⟨s', ?_, ?_, ?_⟩
  · rw [pageFault_outside hcur, grow_wraps hfits hdown hpage hhigh hword, ok_bind, assure_outside,
      ok_bind, hs']
    · rw [modify_rgn]
      change ¬ ((turned _ (curStack s)).lower ≤ _ ∧ _ < (turned _ (curStack s)).upper)
      rw [hlower, hupper]
      omega
    · rw [curStack]
      omega
    · rw [curCode]
      omega
    · omega
  · rw [hstack', hlower, hupper]
    omega
  · intro cr2' hf hhalf
    obtain ⟨hlo, hhi⟩ := floor_bounds (by decide) ⟨hhalf, hf.range.2⟩
    have hgrow : grow (stackOf s' s'.curThrd) (floor cr2' pageSize) s'.space = .error .assertion := by
      refine grow_smaller ?_ ?_ hhi ?_
      · change (curStack s').growup = false
        rw [hstack']
        exact hdown
      · change (curStack s').virt = lowHalfTop
        rw [hstack']
        exact hvirt
      · change _ ≤ (curStack s').size
        rw [hstack']
        exact (Nat.sub_le ..).trans (Nat.le_add_right ..)
    rw [pageFault_outside hf.cur, hgrow]
    · rfl
    · rw [hstack', hlower]
      omega
    · rw [hcode', curCode]
      omega
    · exact hlo

/-- Over every run of legal calls, every write of the current user thread to what is
not present in the high half harms its stack region. -/
theorem bad_write_harms (hboot : Boot s) {ops : List Op}
    (hlegal : Whenever (Step E I) (Legal E I) s ops) :
    Along (Step E I) (fun _ _ s' _ => ∀ cr2, BadWrite s' cr2 → ¬ Unharmed E s' cr2 ∧ Harmed E s' cr2)
      s ops := by
  have hstep : ∀ s a, (∃ l, Inv middle s l) → Legal E I s a →
      ∃ s' b, Step E I s a s' b ∧
        (∀ cr2, BadWrite s' cr2 → ¬ Unharmed E s' cr2 ∧ Harmed E s' cr2) ∧ ∃ l, Inv middle s' l := by
    intro s a ⟨l, hinv⟩ hop
    obtain ⟨s', l', hcall, hinv', _⟩ := call_inv hinv hop.at_middle
    refine ⟨s', (), hcall, ?_, l', hinv'⟩
    intro cr2 hbad
    have hharmed := hinv'.harmed (E := E) hbad
    refine ⟨fun ⟨s₁, hcall₁, hformed, _⟩ => ?_, hharmed⟩
    obtain ⟨s₂, hcall₂, hturned, _⟩ := hharmed
    obtain rfl := Except.ok.inj (hcall₁.symm.trans hcall₂)
    have hrange := hformed.range
    omega
  exact along_of_invariant hstep ⟨[], hboot.inv isCut_middle⟩ hlegal

/-- A process starts and reaches down its stack, and may then write to the high half. -/
theorem bad_write_harms_one :
    Along (Step smallEnv smallImage)
      (fun _ _ s' _ => ∀ cr2, BadWrite s' cr2 → ¬ Unharmed smallEnv s' cr2 ∧ Harmed smallEnv s' cr2)
      bootState [.uspawn [0x90, 0xC3] 8 0x200000 [], .yield 0, .pageFault 0x7FFFFFFF0008] := by
  refine bad_write_harms bootState_boot (whenever_of_checkRun (call_computes 10) ?_)
  decide +kernel

instance (s : State) (cr2 : Nat) : Decidable (BadWrite s cr2) :=
  decidable_of_iff (codeOf s s.curThrd ≠ NULL ∧ (highHalfBot ≤ cr2 ∧ cr2 < wordSize) ∧
    s.space.map (floor cr2 pageSize) % 2 = 0)
    ⟨fun ⟨huser, hcanonical, habsent⟩ => ⟨huser, hcanonical, habsent⟩,
      fun h => ⟨h.user, h.canonical, h.absent⟩⟩

/-- The first thing a process does is to write to the last page of all. -/
theorem bad_write_turns_stack :
    Whenever (Step smallEnv smallImage) (Legal smallEnv smallImage) bootState
      [.uspawn [0x90, 0xC3] 8 0x200000 [], .yield 0] ∧
    ¬ Along (Step smallEnv smallImage)
      (fun _ _ s' _ => ∀ cr2, BadWrite s' cr2 → Unharmed smallEnv s' cr2) bootState
      [.uspawn [0x90, 0xC3] 8 0x200000 [], .yield 0] := by
  constructor
  · refine whenever_of_checkRun (call_computes 10) ?_
    decide +kernel
  · intro halong
    have hchecked := checkPost_of_along (call_computes 10)
      (q := fun _ _ s' _ => decide (BadWrite s' 0xFFFFFFFFFFFFF000 →
        ∃ s'' ∈ (pageFault smallEnv userWrite 0xFFFFFFFFFFFFF000 s').toOption,
          (curStack s'').lower + (curStack s'').size = (curStack s'').upper)) ?_ halong
    · revert hchecked
      decide +kernel
    · intro s a s' b hpost
      rw [decide_eq_true_iff]
      intro hbad
      obtain ⟨s'', hcall, hformed, _⟩ := hpost _ hbad
      refine ⟨s'', ?_, hformed.range⟩
      rw [hcall]
      rfl

end Faults

end Frosk.Scheduler
