import Mathlib.Tactic
import Frosk.Scheduler.Context

/-!
# Scheduler: what a thread has in memory

`Place s t a p` : address `a` of thread `t` is at place `p` of memory, whether the
thread runs or not. A call that leaves a thread alone leaves its places and what is
in them (`place_untouched`, `place_mem`); no two threads share a place
(`place_apart`); and the thread that runs reads and writes its own places
(`loadByte_place`, `place_load`).

`WellPlaced` is what the places of a thread are like: each is a place of one address
only, and the two pages at the top of the stack are there. It holds of every thread
after every call (`call_backed`).
-/

namespace Frosk.Scheduler

open Lib Regions

/-- Address `a` of the thread is at place `p`. -/
def Place (s : State) (t : Ptr) (a p : Nat) : Prop :=
  ∃ r b, Owns s t r ∧ b ∈ (s.space.rgn r).blocks ∧ (b.virt ≤ a ∧ a < b.virt + b.size) ∧
    p = b.phys + (a - b.virt)

/-- The two pages where a stack begins. -/
abbrev stackBot : Nat := lowHalfTop - 2 * pageSize

structure WellPlaced (s : State) (t : Ptr) : Prop where
  wide : ∀ r, Owns s t r → ∀ b ∈ (s.space.rgn r).blocks, b.phys + b.size ≤ 2 ^ 52
  one  : ∀ a a' p, Place s t a p → Place s t a' p → a' = a
  top  : ∃ phys, ⟨stackBot, phys, 2 * pageSize⟩ ∈ (s.space.rgn (stackOf s t)).blocks

/-- The bytes are in memory of the thread from `a` on. -/
def Holds (s : State) (t : Ptr) (a : Nat) (l : List UInt8) : Prop :=
  ∀ i (hi : i < l.length), ∃ p, Place s t (a + i) p ∧ s.space.mem p = l[i]

/-- The byte that the thread has at `a`. -/
def Seen (s : State) (t : Ptr) (a : Nat) (c : UInt8) : Prop :=
  ∃ p, Place s t a p ∧ s.space.mem p = c

section Places

variable {E : Env} {I : Image} {cut : Nat} {s s' : State} {l : List Ptr} {t u : Ptr} {a a' p p' : Nat}

/-- Who owns a region is a thread. -/
theorem Owns.ne_null {r : Ptr} (h : Owns s t r) : t ≠ NULL := by
  rintro rfl
  exact h.1 (h.2.elim id id)

/-- Who has a place is a thread as well. -/
theorem Place.ne_null (hp : Place s t a p) : t ≠ NULL := by
  obtain ⟨r, b, hr, -⟩ := hp
  exact hr.ne_null

/-- The frame of a place is one of the thread. -/
theorem Place.frame (h : Inv cut s l) (ht : t ∈ l) (hp : Place s t a p) :
    ∃ r, Owns s t r ∧ p / pageSize * pageSize ∈ (s.space.rgn r).frames := by
  obtain ⟨r, b, howns, hb, hin, rfl⟩ := hp
  have hwhole := (h.owned_spec ht howns).2 b hb
  have hphys := hwhole.phys
  refine ⟨r, howns, ?_⟩
  rw [Region.frames, List.mem_flatMap]
  refine ⟨b, hb, mem_pageRange.mpr ⟨(a - b.virt) / pageSize, ?_, ?_⟩⟩
  · unfold pageSize
    omega
  · unfold pageSize at *
    omega

/-- Every byte of a frame of the thread is a place of it. -/
theorem place_of_frame (h : Inv cut s l) (ht : t ∈ l) {r : Ptr} (hr : Owns s t r) {f i : Nat}
    (hf : f ∈ (s.space.rgn r).frames) (hi : i < pageSize) : ∃ a, Place s t a (f + i) := by
  rw [Region.frames, List.mem_flatMap] at hf
  obtain ⟨b, hb, hf⟩ := hf
  obtain ⟨k, hk, rfl⟩ := mem_pageRange.mp hf
  have hsize := ((h.owned_spec ht hr).2 b hb).size
  refine ⟨b.virt + (k * pageSize + i), r, b, hr, hb, ⟨by omega, ?_⟩, by omega⟩
  unfold pageSize at *
  omega

/-- The addresses of a thread are in the low half. -/
theorem Place.range (h : Inv cut s l) (ht : t ∈ l) (hp : Place s t a p) :
    uspaceBot ≤ a ∧ a < lowHalfTop := by
  obtain ⟨r, b, ⟨hne, hr⟩, hb, hin, -⟩ := hp
  have hok := h.each t ht
  have habove := h.split.above
  have hbelow := h.split.below
  rcases hr with rfl | rfl
  · have hside := hok.stack.2.inside b hb
    have hbounds := hok.stack.2.bounds (by decide)
    omega
  · have hside := (hok.code hne).2.inside b hb
    have hbounds := (hok.code hne).2.bounds h.split.word
    omega

/-- No two threads share a place. -/
theorem place_apart (h : Inv cut s l) (ht : t ∈ l) (hu : u ∈ l) (hne : t ≠ u) (hp : Place s t a p)
    (hp' : Place s u a' p') : p' ≠ p := by
  rintro rfl
  obtain ⟨r, hr, hf⟩ := hp.frame h ht
  obtain ⟨q, hq, hf'⟩ := hp'.frame h hu
  exact (h.apart t ht u hu hne r q hr hq).2 _ hf hf'

/-- The places of a thread depend on its regions only. -/
theorem place_congr (hstack : stackOf s' t = stackOf s t) (hcode : codeOf s' t = codeOf s t)
    (hrgn : ∀ r, Owns s t r → s'.space.rgn r = s.space.rgn r) : Place s' t a p ↔ Place s t a p := by
  have howns : ∀ r, Owns s' t r ↔ Owns s t r := by
    intro r
    rw [Owns, hstack, hcode, Owns]
  constructor
  · rintro ⟨r, b, hr, hb, hin, rfl⟩
    rw [howns] at hr
    rw [hrgn r hr] at hb
    exact ⟨r, b, hr, hb, hin, rfl⟩
  · rintro ⟨r, b, hr, hb, hin, rfl⟩
    rw [← hrgn r hr] at hb
    exact ⟨r, b, (howns r).mpr hr, hb, hin, rfl⟩

/-- So an untouched thread keeps its places. -/
theorem place_untouched (hu : Untouched s s' t) : Place s' t a p ↔ Place s t a p :=
  place_congr hu.stack hu.code hu.rgn

theorem place_mem (h : Inv cut s l) (ht : t ∈ l) (hu : Untouched s s' t) (hp : Place s t a p) :
    s'.space.mem p = s.space.mem p := by
  obtain ⟨r, hr, hf⟩ := hp.frame h ht
  have hmem := hu.mem r hr _ hf (p % pageSize) (Nat.mod_lt _ (by decide))
  rwa [Nat.div_add_mod'] at hmem

/-- It sees what it saw. -/
theorem seen_untouched (h : Inv cut s l) (ht : t ∈ l) (hu : Untouched s s' t) {c : UInt8} :
    Seen s' t a c ↔ Seen s t a c := by
  constructor
  · rintro ⟨p, hp, rfl⟩
    rw [place_untouched hu] at hp
    exact ⟨p, hp, (place_mem h ht hu hp).symm⟩
  · rintro ⟨p, hp, rfl⟩
    exact ⟨p, (place_untouched hu).mpr hp, place_mem h ht hu hp⟩

theorem Holds.untouched (h : Inv cut s l) (ht : t ∈ l) (hu : Untouched s s' t) {ws : List UInt8}
    (hh : Holds s t a ws) : Holds s' t a ws :=
  fun i hi => (seen_untouched h ht hu).mpr (hh i hi)

/-- A thread is placed as well as its regions are. -/
theorem WellPlaced.congr (hb : WellPlaced s t) (hstack : stackOf s' t = stackOf s t)
    (hcode : codeOf s' t = codeOf s t) (hsome : stackOf s t ≠ NULL)
    (hrgn : ∀ r, Owns s t r → s'.space.rgn r = s.space.rgn r) : WellPlaced s' t := by
  refine ⟨?_, ?_, ?_⟩
  · intro r hr b hmem
    rw [Owns, hstack, hcode] at hr
    rw [hrgn r hr] at hmem
    exact hb.wide r hr b hmem
  · intro a a' p hp hp'
    rw [place_congr hstack hcode hrgn] at hp hp'
    exact hb.one a a' p hp hp'
  · rw [hstack, hrgn _ ⟨hsome, .inl rfl⟩]
    exact hb.top

theorem WellPlaced.untouched (h : Inv cut s l) (ht : t ∈ l) (hu : Untouched s s' t) (hb : WellPlaced s t) :
    WellPlaced s' t :=
  hb.congr hu.stack hu.code (h.each t ht).some hu.rgn

-- ---------------------------------------------------------------------------
-- The thread that runs
-- ---------------------------------------------------------------------------

/-- The blocks of the current thread are mapped. -/
theorem Inv.mapped (h : Inv cut s l) (hb : WellPlaced s s.curThrd) {r : Ptr} (hr : Owns s s.curThrd r)
    {b : Block} (hmem : b ∈ (s.space.rgn r).blocks) : Mapped s.space b := by
  refine ⟨(h.owned_spec (h.cur hr.ne_null) hr).2 b hmem, hb.wide r hr b hmem, ?_⟩
  intro v hv
  have hp : HasPage s s.curThrd b v := ⟨r, hr, hmem, hv⟩
  obtain ⟨_, hwhole, _⟩ := hasPage_range h hp
  rw [entry_eq h hp (hasPage_paged h hp), blockEntry, Nat.mod_eq_of_lt]
  have hfits := hwhole.fits.2
  unfold Block.HasPage at hv
  omega

/-- A place of the running thread can be loaded and stored. -/
theorem place_load (h : Inv cut s l) (hb : WellPlaced s s.curThrd) (hp : Place s s.curThrd a p) :
    loadByte s.space a = some (s.space.mem p) ∧
      ∀ c, storeByte a c s.space = .ok { s.space with mem := s.space.mem.blit p [c] } := by
  obtain ⟨r, b, hr, hmem, hin, rfl⟩ := hp
  have hmapped := h.mapped hb hr hmem
  obtain ⟨hpresent, hplace⟩ := mapped_place 7 (by decide) (by decide) hmapped.whole hmapped.wide
    hmapped.map (k := a - b.virt) (by omega)
  rw [Nat.add_sub_cancel' hin.1] at hpresent hplace
  constructor
  · rw [loadByte, if_pos hpresent, hplace]
  · intro c
    rw [storeByte, if_pos hpresent, hplace]

/-- A page of the low half is present only if the current thread has it. -/
theorem place_of_present (h : Inv cut s l) (ha : uspaceBot ≤ a ∧ a < lowHalfTop)
    (hpresent : s.space.map (a / pageSize * pageSize) % 2 = 1) : ∃ p, Place s s.curThrd a p := by
  have hlow : uspaceBot ≤ a / pageSize * pageSize := by
    unfold pageSize uspaceBot at *
    omega
  have hhigh : a / pageSize * pageSize < lowHalfTop := by
    unfold pageSize
    omega
  obtain ⟨b, r, hr, hmem, hpage⟩ := (h.isolated.present _ hlow hhigh
    (Nat.mul_mod_left ..)).mp hpresent
  have hwhole := (h.owned_spec (h.cur hr.ne_null) hr).2 b hmem
  have hsize := hwhole.size
  refine ⟨_, r, b, hr, hmem, ?_, rfl⟩
  unfold Block.HasPage pageSize at *
  omega

/-- The current thread sees in the low half what it has there. -/
theorem loadByte_place (h : Inv cut s l) (hb : ∀ t ∈ l, WellPlaced s t)
    (ha : uspaceBot ≤ a ∧ a < lowHalfTop) {c : UInt8} :
    loadByte s.space a = some c ↔ Seen s s.curThrd a c := by
  have hload : ∀ {p}, Place s s.curThrd a p → loadByte s.space a = some (s.space.mem p) :=
    fun hp => (place_load h (hb _ (h.cur hp.ne_null)) hp).1
  constructor
  · intro hc
    have hpresent : s.space.map (a / pageSize * pageSize) % 2 = 1 := by
      by_contra hnot
      rw [loadByte, if_neg hnot] at hc
      cases hc
    obtain ⟨p, hp⟩ := place_of_present h ha hpresent
    rw [hload hp] at hc
    exact ⟨p, hp, Option.some.inj hc⟩
  · rintro ⟨p, hp, rfl⟩
    exact hload hp

/-- What it holds is loaded. -/
theorem Holds.load (h : Inv cut s l) (hb : WellPlaced s s.curThrd) {ws : List UInt8}
    (hh : Holds s s.curThrd a ws) : loadBytes s.space a ws.length = some ws := by
  induction ws generalizing a with
  | nil => rfl
  | cons w ws ih =>
    obtain ⟨p, hp, hw⟩ := hh 0 (Nat.succ_pos _)
    have hfirst : loadByte s.space a = some w := (place_load h hb hp).1.trans (congrArg some hw)
    have hrest : Holds s s.curThrd (a + 1) ws := by
      intro i hi
      have hnext := hh (i + 1) (Nat.succ_lt_succ hi)
      have hplace : a + 1 + i = a + (i + 1) := by omega
      rw [hplace]
      exact hnext
    rw [List.length_cons, loadBytes, hfirst, ih hrest]
    rfl

-- ---------------------------------------------------------------------------
-- Stores
-- ---------------------------------------------------------------------------

/-- Memory is not part of the invariant. -/
theorem inv_mem (h : Inv cut s l) (mem : Memory) :
    Inv cut { s with space := { s.space with mem := mem } } l := by
  refine ⟨h.split, onRing_congr h.ring rfl fun _ _ => rfl, fun t ht => ?_, h.apart, h.cur, h.swapped,
    h.high, h.low, h.lock, h.refused⟩
  exact threadOk_congr (h.each t ht) rfl rfl rfl (fun _ _ => rfl) (fun _ hx => hx) fun _ hf => hf

/-- A thread does not mind what happens elsewhere in memory. -/
theorem untouched_mem (h : Inv cut s l) (ht : t ∈ l) {mem : Memory}
    (hsame : ∀ a p, Place s t a p → mem p = s.space.mem p) :
    Untouched s { s with space := { s.space with mem := mem } } t := by
  refine ⟨rfl, rfl, rfl, fun _ _ => rfl, fun r hr f hf i hi => ?_⟩
  obtain ⟨a, hp⟩ := place_of_frame h ht hr hf hi
  exact hsame a _ hp

-- ---------------------------------------------------------------------------
-- New threads
-- ---------------------------------------------------------------------------

/-- A region of one block has no other. -/
theorem OneBlock.place {r : Ptr} {virt phys n : Nat} (h : OneBlock s t r virt phys n)
    {b : Block} (hb : b ∈ (s.space.rgn r).blocks) : b = ⟨virt, phys, n⟩ := by
  rw [h.blocks] at hb
  exact List.mem_singleton.mp hb

/-- A thread with one block in each of its regions. -/
theorem backed_of_blocks {phys : Nat} (hstack : OneBlock s t (stackOf s t) stackBot phys (2 * pageSize))
    (hcode : codeOf s t ≠ NULL → ∃ physC n, OneBlock s t (codeOf s t) uspaceBot physC n ∧
      ∀ i < n, physC + i < phys ∨ phys + 2 * pageSize ≤ physC + i) : WellPlaced s t := by
  -- where a place can be
  have hplace : ∀ {a p}, Place s t a p → (stackBot ≤ a ∧ a < stackBot + 2 * pageSize ∧
      p = phys + (a - stackBot)) ∨ (codeOf s t ≠ NULL ∧ ∀ physC n,
        OneBlock s t (codeOf s t) uspaceBot physC n →
          uspaceBot ≤ a ∧ a < uspaceBot + n ∧ p = physC + (a - uspaceBot)) := by
    rintro a p ⟨r, b, ⟨hne, rfl | rfl⟩, hb, hin, rfl⟩
    · obtain rfl := hstack.place hb
      exact .inl ⟨hin.1, hin.2, rfl⟩
    · refine .inr ⟨hne, ?_⟩
      intro physC n hone
      obtain rfl := hone.place hb
      exact ⟨hin.1, hin.2, rfl⟩
  refine ⟨?_, ?_, phys, ?_⟩
  · intro r hr b hb
    obtain ⟨hne, rfl | rfl⟩ := hr
    · rw [hstack.place hb]
      exact hstack.wide
    · obtain ⟨physC, n, hone, -⟩ := hcode hne
      rw [hone.place hb]
      exact hone.wide
  · intro a a' p hp hp'
    rcases hplace hp with ⟨hlo, hhi, heq⟩ | ⟨hne, hp⟩
    · rcases hplace hp' with ⟨hlo', hhi', heq'⟩ | ⟨hne, hp'⟩
      · omega
      · obtain ⟨physC, n, hone, hapart⟩ := hcode hne
        obtain ⟨hlo', hhi', heq'⟩ := hp' physC n hone
        have hside := hapart (a' - uspaceBot) (by omega)
        omega
    · obtain ⟨physC, n, hone, hapart⟩ := hcode hne
      obtain ⟨hlo, hhi, heq⟩ := hp physC n hone
      rcases hplace hp' with ⟨hlo', hhi', heq'⟩ | ⟨-, hp'⟩
      · have hside := hapart (a - uspaceBot) (by omega)
        omega
      · obtain ⟨hlo', hhi', heq'⟩ := hp' physC n hone
        omega
  · rw [hstack.blocks]
    exact List.mem_singleton_self _

/-- The thread has the frame of `schedule` on its stack. -/
def Begins (I : Image) (s : State) (t : Ptr) : Prop :=
  ∃ start extv kthrd, Holds s t (s.thr t).rsp ((startFrame I start extv kthrd).flatMap (leBytes 8))

section Scheduled

variable {par start : Nat} {extv : List Nat} {kthrd : Bool} {space : Space} {stack phys : Nat}

/-- A new thread has a stack of one block. -/
theorem Scheduled.oneBlock (h : Scheduled E I s s' t par start extv kthrd l space stack phys) :
    OneBlock s' t (stackOf s' t) stackBot phys (2 * pageSize) := by
  obtain ⟨hspace, hstackOf, _, _, _⟩ := h.regions
  have hstack : stack ≠ NULL := by
    rw [h.loaded.ptr]
    exact E.kalloc.ne_null _
  refine ⟨⟨?_, .inl rfl⟩, ?_, E.wide h.loaded.pick⟩
  · rw [hstackOf]
    exact hstack
  · rw [hstackOf, hspace, h.loaded.region]
    rfl

theorem Scheduled.begins (h : Scheduled E I s s' t par start extv kthrd l space stack phys)
    (hextv : extv.length ≤ 100) : Begins I s' t := by
  obtain ⟨hspace, _, _, _, hrsp⟩ := h.regions
  have hone := h.oneBlock
  refine ⟨start, extv, kthrd, ?_⟩
  intro i hi
  have hlen := startFrame_length (I := I) start extv kthrd
  have hin : (⟨stackBot, phys, 2 * pageSize⟩ : Block) ∈ (s'.space.rgn (stackOf s' t)).blocks := by
    rw [hone.blocks]
    exact List.mem_singleton_self _
  refine ⟨phys + (pageSize - 8 * (6 + extv.length)) + i, ⟨_, _, hone.owns, hin, ?_, ?_⟩, ?_⟩
  · rw [hrsp]
    unfold stackBot pageSize lowHalfTop
    dsimp only
    omega
  · rw [hrsp]
    unfold stackBot pageSize lowHalfTop
    dsimp only
    omega
  · rw [hspace, h.mem]
    exact Memory.blit_inside hi

end Scheduled

/-- What a legal call other than `yield` leaves of the threads. -/
structure Called (cut : Nat) (I : Image) (s s' : State) (l l' : List Ptr) : Prop where
  inv    : Inv cut s' l'
  kept   : Kept s s' l l'
  backed : ∀ t ∈ l', WellPlaced s' t
  cur    : s'.curThrd = s.curThrd
  begins : ∀ t ∈ l', t ∉ l → Begins I s' t

/-- Serving a page for the current thread. -/
theorem Served.backed' (h : Inv cut s l) (hb : WellPlaced s s.curThrd) {space : Space}
    {r page phys lo hi n : Nat} (hserved : Served E s.space space r page phys lo hi n)
    (hcur : s.curThrd ∈ l) : WellPlaced { s with space := space } s.curThrd := by
  have hok := h.each _ hcur
  have hpick := hserved.pick
  -- a place is an old one or one in the new frame
  have hplace : ∀ {a p}, Place { s with space := space } s.curThrd a p → Place s s.curThrd a p ∨
      page ≤ a ∧ a < page + pageSize ∧ p = phys + (a - page) := by
    rintro a p ⟨q, b, hq, hmem, hin, rfl⟩
    have howns : Owns s s.curThrd q := hq
    by_cases hqr : q = r
    · subst hqr
      have hblocks : b ∈ (space.rgn q).blocks := hmem
      rw [hserved.rgn_self] at hblocks
      rcases List.mem_cons.mp hblocks with rfl | hold
      · exact .inr ⟨hin.1, hin.2, rfl⟩
      · exact .inl ⟨q, b, howns, hold, hin, rfl⟩
    · have hblocks : b ∈ (space.rgn q).blocks := hmem
      rw [hserved.rgn_ne hqr] at hblocks
      exact .inl ⟨q, b, howns, hblocks, hin, rfl⟩
  have hnew : ∀ {a p}, Place s s.curThrd a p → p / pageSize * pageSize ≠ phys := by
    intro a p hp heq
    obtain ⟨q, hq, hf⟩ := hp.frame h hcur
    exact hserved.fresh (heq ▸ (hok.owned q hq).2 _ hf)
  have hphys := E.phys.paged hpick
  refine ⟨?_, ?_, ?_⟩
  · intro q hq b hmem
    have howns : Owns s s.curThrd q := hq
    by_cases hqr : q = r
    · subst hqr
      have hblocks : b ∈ (space.rgn q).blocks := hmem
      rw [hserved.rgn_self] at hblocks
      rcases List.mem_cons.mp hblocks with rfl | hold
      · exact E.wide hpick
      · exact hb.wide q howns b hold
    · have hblocks : b ∈ (space.rgn q).blocks := hmem
      rw [hserved.rgn_ne hqr] at hblocks
      exact hb.wide q howns b hblocks
  · intro a a' p hp hp'
    rcases hplace hp with hp | ⟨hlo, hhi, heq⟩
    · rcases hplace hp' with hp' | ⟨hlo', hhi', heq'⟩
      · exact hb.one a a' p hp hp'
      · have hframe := hnew hp
        unfold pageSize at *
        omega
    · rcases hplace hp' with hp' | ⟨hlo', hhi', heq'⟩
      · have hframe := hnew hp'
        unfold pageSize at *
        omega
      · omega
  · obtain ⟨physT, htop⟩ := hb.top
    refine ⟨physT, ?_⟩
    show _ ∈ (space.rgn (stackOf s s.curThrd)).blocks
    by_cases hqr : stackOf s s.curThrd = r
    · rw [hqr] at htop ⊢
      rw [hserved.rgn_self]
      exact List.mem_cons_of_mem _ htop
    · rw [hserved.rgn_ne hqr]
      exact htop

/-- A call other than yield keeps every thread well placed. -/
theorem call_backed (h : Inv cut s l) (hb : ∀ t ∈ l, WellPlaced s t) {op : Op}
    (hop : ∀ rsp, op ≠ .yield rsp) (hlegal : LegalAt cut E I s op) :
    ∃ s' l', Step E I s op s' () ∧ Called cut I s s' l l' := by
  cases op with
  | yield rsp => exact absurd rfl (hop rsp)
  | uspawn data bsz entry argv =>
    obtain ⟨hend, hpages⟩ := hlegal
    have hword : wholeSize I data.length bsz argv < wordSize := by
      have hcut := h.split.word
      omega
    obtain ⟨x, hcall, mid, _, n, phys, t, _, physS, _, hspawned⟩ :=
      exists_of_returns (uspawn_spec (E := E) h.base hword entry) hpages
    have huntouched : ∀ u ∈ l, Untouched s x.1 u := fun u hu =>
      (untouched_quiet h (hspawned.quiet.trans hspawned.thread.quiet) hu).trans
        (untouched_enlisted hspawned.thread.listed)
    have hwaiting := hspawned.waiting
    refine ⟨x.1, insertSecond t l, ⟨0, ?_⟩, hspawned.inv h hend, fun u hu =>
      ⟨mem_insertSecond.mpr (.inr hu), fun _ => huntouched u hu⟩, fun u hu => ?_, ?_, fun u hu hnew => ?_⟩
    · rw [call, hcall]
      rfl
    · rcases mem_insertSecond.mp hu with rfl | hu
      · exact backed_of_blocks hwaiting.stack fun _ => ⟨_, _, hwaiting.code, hwaiting.apart⟩
      · exact (hb u hu).untouched h hu (huntouched u hu)
    · exact hspawned.thread.listed.cur.trans hspawned.quiet.cur
    · rcases mem_insertSecond.mp hu with rfl | hu
      · exact hspawned.thread.begins (by simp)
      · exact absurd hu hnew
  | kspawn func =>
    obtain ⟨x, hcall, mid, t, _, _, _, hspawned⟩ :=
      exists_of_returns (kspawn_spec (E := E) (I := I) h.base func) hlegal
    have huntouched : ∀ u ∈ l, Untouched s x.1 u := fun u hu =>
      (untouched_quiet h (hspawned.quiet.trans hspawned.thread.quiet) hu).trans
        (untouched_enlisted hspawned.thread.listed)
    refine ⟨x.1, insertSecond t l, ⟨0, ?_⟩, hspawned.inv h, fun u hu =>
      ⟨mem_insertSecond.mpr (.inr hu), fun _ => huntouched u hu⟩, fun u hu => ?_, ?_, fun u hu hnew => ?_⟩
    · rw [call, hcall]
      rfl
    · rcases mem_insertSecond.mp hu with rfl | hu
      · refine backed_of_blocks hspawned.thread.oneBlock fun hne => absurd ?_ hne
        rw [hspawned.thread.regions.2.2.2.1]
        exact hspawned.own
      · exact (hb u hu).untouched h hu (huntouched u hu)
    · exact hspawned.thread.listed.cur.trans hspawned.quiet.cur
    · rcases mem_insertSecond.mp hu with rfl | hu
      · exact hspawned.thread.begins (by simp)
      · exact absurd hu hnew
  | pageFault cr2 =>
    obtain ⟨hfault, hside, hpages⟩ := hlegal
    obtain ⟨s', hcall, hinv, space, _, _, rfl, hserved⟩ :=
      exists_of_returns (pageFault_inv (E := E) h hfault hside) hpages
    have hcur := h.cur hfault.cur
    have hstep : (∀ u ∈ l, u ≠ s.curThrd → Untouched s { s with space := space } u) ∧
        WellPlaced { s with space := space } s.curThrd := by
      rcases hserved with hserved | hserved
      · exact ⟨fun u hu hne => untouched_served h hserved hcur ⟨(h.each _ hcur).some, .inl rfl⟩ hu hne,
          hserved.backed' h (hb _ hcur) hcur⟩
      · exact ⟨fun u hu hne => untouched_served h hserved hcur ⟨hfault.user, .inr rfl⟩ hu hne,
          hserved.backed' h (hb _ hcur) hcur⟩
    refine ⟨_, l, ⟨0, hcall⟩, hinv, fun u hu => ⟨hu, hstep.1 u hu⟩, fun u hu => ?_, rfl,
      fun u hu hnew => absurd hu hnew⟩
    by_cases hne : u = s.curThrd
    · rw [hne]
      exact hstep.2
    · exact (hb u hu).untouched h hu (hstep.1 u hu hne)

end Places

end Frosk.Scheduler
