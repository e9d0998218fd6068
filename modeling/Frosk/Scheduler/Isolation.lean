import Mathlib.Tactic
import Frosk.Lib.Run
import Frosk.Scheduler.Steps

/-!
# Scheduler: isolation of address spaces

A run is made of `uspawn`, `kspawn`, `yield` and page faults of the current user
thread, in any order. After every call the pages that are present in the low half
are those of the blocks of the current thread, each with its own frame, and no
frame of another thread is behind any of them (`Isolated`). All calls of such a
run return; so `swapout` finds its region each time, and `swapin` never refuses.

Main result: `isolation`.
-/

namespace Frosk.Scheduler

open Lib Regions

inductive Op where
  | uspawn (data : List UInt8) (bsz entry : Nat) (argv : List CStr)
  | kspawn (func : Nat)
  | yield (rsp : Nat)
  | pageFault (cr2 : Nat)

/-- One call, with a bound on the search of `yield`. -/
def call (E : Env) (I : Image) (n : Nat) (s : State) : Op → Except Fault State
  | .uspawn data bsz entry argv => (uspawn E I data bsz entry argv s).map Prod.fst
  | .kspawn func => (kspawn E I func s).map Prod.fst
  | .yield rsp => Scheduler.yield n rsp s
  | .pageFault cr2 => Scheduler.pageFault E userWrite cr2 s

def Step (E : Env) (I : Image) (s : State) (a : Op) (s' : State) (_ : Unit) : Prop :=
  ∃ n, call E I n s a = .ok s'

/-- Pages do not run out. -/
def Supplied {α : Type} (x : Except Fault α) : Prop := x ≠ .error .noPages

/-- Images end below the middle of the low half, page faults are writes of the
current user thread to what is not present, and pages do not run out. -/
def Legal (E : Env) (I : Image) (s : State) : Op → Prop
  | .uspawn data bsz entry argv => uspaceBot + wholeSize I data.length bsz argv < middle ∧
      Supplied (uspawn E I data bsz entry argv s)
  | .kspawn func => Supplied (kspawn E I func s)
  | .yield _ => True
  | .pageFault cr2 => UserFault s cr2 ∧ Supplied (Scheduler.pageFault E userWrite cr2 s)

/-- The thread is on the ring. -/
def Listed (s : State) (t : Ptr) : Prop :=
  s.headThrd ≠ NULL ∧ ∃ k, s.next^[k] s.headThrd = t

/-- The page is one of a block of the thread. -/
def HasPage (s : State) (t : Ptr) (b : Block) (v : Nat) : Prop :=
  ∃ r, Owns s t r ∧ b ∈ (s.space.rgn r).blocks ∧ b.HasPage v

/-- The frame that an entry is for. -/
def frameOf (entry : Nat) : Nat := entry / pageSize * pageSize

/-- In the low half exactly the pages of the current thread are present, each with
the frame of its block, and no frame of another thread. -/
structure Isolated (s : State) : Prop where
  present : ∀ v, uspaceBot ≤ v → v < lowHalfTop → v % pageSize = 0 →
    (s.space.map v % 2 = 1 ↔ ∃ b, HasPage s s.curThrd b v)
  own     : ∀ v b, HasPage s s.curThrd b v →
    s.space.map v = (b.phys + (v - b.virt)) ||| 7
  others  : ∀ v, uspaceBot ≤ v → v < lowHalfTop → v % pageSize = 0 → s.space.map v % 2 = 1 →
    ∀ t, Listed s t → t ≠ s.curThrd → ∀ r, Owns s t r →
      frameOf (s.space.map v) ∉ (s.space.rgn r).frames
  refused : s.space.refused = 0

/-- Nothing is scheduled, and nothing is present above the first page table. -/
structure Boot (s : State) : Prop where
  head    : s.headThrd = NULL
  cur     : s.curThrd = NULL
  swapped : s.space.swapped = []
  absent  : ∀ v, uspaceBot ≤ v → v < lowHalfTop → v % pageSize = 0 → s.space.map v % 2 = 0
  lock    : s.schedulerLock = .UNLOCKED
  refused : s.space.refused = 0

section Isolation

variable {E : Env} {I : Image} {cut : Nat} {s s' : State} {l : List Ptr}

/-- The invariant holds at the start. -/
theorem Boot.inv (h : Boot s) (hcut : IsCut cut) : Inv cut s [] := by
  have hstack : stackOf s s.curThrd = NULL := if_pos h.cur
  have hcode : codeOf s s.curThrd = NULL := if_pos h.cur
  refine ⟨hcut, ⟨h.head, fun hne => absurd rfl hne, by simp⟩, by simp, by simp,
    fun hne => absurd h.cur hne, ?_, ?_, ?_, h.lock, h.refused⟩
  · rw [h.swapped, hstack, hcode]
    rfl
  · rw [hstack, blocks_null]
    exact ⟨by simp, fun v hlo hhi hv _ => h.absent v (hlo.trans' hcut.above) hhi hv⟩
  · rw [hcode, blocks_null]
    exact ⟨by simp, fun v hlo hhi hv _ => h.absent v hlo (hhi.trans hcut.below) hv⟩

/-- The ring lists its threads. -/
theorem listed_iff (h : OnRing s l) {t : Ptr} : Listed s t ↔ t ∈ l := by
  have hhead := h.head
  cases l with
  | nil => exact ⟨fun hl => absurd hhead hl.1, fun hmem => by simp at hmem⟩
  | cons x l =>
    have hring : IsRing s.next x l := h.ring (by simp)
    have hx : s.headThrd = x := hhead
    rw [Listed, hx]
    constructor
    · rintro ⟨_, k, rfl⟩
      exact hring.iterate_mem k
    · intro ht
      exact ⟨fun heq => h.null (heq ▸ List.mem_cons_self), hring.exists_iterate ht⟩

/-- The page of a block of the current thread is in the part of its region. -/
theorem hasPage_range (h : Inv cut s l) {b : Block} {v : Nat} (hp : HasPage s s.curThrd b v) :
    s.curThrd ∈ l ∧ b.Whole ∧
    (b ∈ s.space.blocks (stackOf s s.curThrd) ∧ cut ≤ v ∧ v < lowHalfTop ∨
      b ∈ s.space.blocks (codeOf s s.curThrd) ∧ uspaceBot ≤ v ∧ v < cut) := by
  obtain ⟨r, ⟨hne, hr⟩, hb, hv⟩ := hp
  have hcur : s.curThrd ≠ NULL := by
    intro heq
    rw [heq] at hr
    exact hne (hr.elim id id)
  have hmem := h.cur hcur
  have hok := h.each _ hmem
  refine ⟨hmem, (h.owned_spec hmem ⟨hne, hr⟩).2 b hb, ?_⟩
  unfold Block.HasPage at hv
  rcases hr with rfl | rfl
  · have hin := hok.stack.2.inside b hb
    have hbounds := hok.stack.2.bounds (by decide)
    rw [blocks_of_ne hne]
    exact .inl ⟨hb, by omega, by omega⟩
  · have hin := (hok.code hne).2.inside b hb
    have hbounds := (hok.code hne).2.bounds h.split.word
    rw [blocks_of_ne hne]
    exact .inr ⟨hb, by omega, by omega⟩

/-- A page of the running thread is mapped to its frame. -/
theorem entry_eq (h : Inv cut s l) {b : Block} {v : Nat} (hp : HasPage s s.curThrd b v)
    (hv : v % pageSize = 0) : s.space.map v = (b.phys + (v - b.virt)) ||| 7 := by
  obtain ⟨_, hwhole, hpart⟩ := hasPage_range h hp
  obtain ⟨_, _, _, hpage⟩ := hp
  have hlt : b.phys + (v - b.virt) < wordSize := by
    have hfits := hwhole.fits.2
    unfold Block.HasPage at hpage
    omega
  have hentry : blockEntry 7 b (v - b.virt) = (b.phys + (v - b.virt)) ||| 7 := by
    rw [blockEntry, Nat.mod_eq_of_lt hlt]
  rw [← hentry]
  rcases hpart with ⟨hb, hlo, hhi⟩ | ⟨hb, hlo, hhi⟩
  · exact h.high.own v hlo hhi hv b hb hpage
  · exact h.low.own v hlo hhi hv b hb hpage

/-- The frame behind a page of a block is one of the frames of the region. -/
theorem frame_mem {b : Block} (hb : b.Whole) {v : Nat} (hv : b.HasPage v) {r : Region}
    (hr : b ∈ r.blocks) : frameOf ((b.phys + (v - b.virt)) ||| 7) ∈ r.frames := by
  have hphys := hb.phys
  obtain ⟨hle, hlt, hmod⟩ := hv
  have hframe : frameOf ((b.phys + (v - b.virt)) ||| 7) = b.phys + (v - b.virt) := by
    rw [frameOf, paged_or (by unfold pageSize at *; omega) (by decide)]
    unfold pageSize at *
    omega
  rw [hframe, Region.frames, List.mem_flatMap]
  refine ⟨b, hr, mem_pageRange.mpr ⟨(v - b.virt) / pageSize, ?_, ?_⟩⟩
  · unfold pageSize at *
    omega
  · unfold pageSize at *
    omega

/-- A page starts at a page. -/
theorem hasPage_paged (h : Inv cut s l) {b : Block} {v : Nat} (hp : HasPage s s.curThrd b v) :
    v % pageSize = 0 := by
  have hvirt := (hasPage_range h hp).2.1.virt
  obtain ⟨_, _, _, hle, _, hmod⟩ := hp
  unfold pageSize at *
  omega

/-- In the invariant the threads are isolated. -/
theorem Inv.isolated (h : Inv cut s l) : Isolated s := by
  have hiff : ∀ v, uspaceBot ≤ v → v < lowHalfTop → v % pageSize = 0 →
      (s.space.map v % 2 = 1 ↔ ∃ b, HasPage s s.curThrd b v) := by
    intro v hlo hhi hv
    constructor
    · intro hpresent
      by_contra hnone
      -- a block of either region would have the page
      have hno : ∀ r, r = stackOf s s.curThrd ∨ r = codeOf s s.curThrd →
          ∀ b ∈ s.space.blocks r, ¬ b.HasPage v := by
        intro r hr b hb hpage
        by_cases hne : r = NULL
        · rw [hne, blocks_null] at hb
          simp at hb
        · rw [blocks_of_ne hne] at hb
          exact hnone ⟨b, r, ⟨hne, hr⟩, hb, hpage⟩
      rcases Nat.lt_or_ge v cut with hlt | hge
      · have habsent := h.low.none v hlo hlt hv (hno _ (.inr rfl))
        omega
      · have habsent := h.high.none v hge hhi hv (hno _ (.inl rfl))
        omega
    · intro ⟨b, hp⟩
      rw [entry_eq h hp hv, Nat.or_mod_two_eq_one]
      exact .inr rfl
  refine ⟨hiff, fun v b hp => entry_eq h hp (hasPage_paged h hp), ?_, h.refused⟩
  intro v hlo hhi hv hpresent t ht hne r hr hmem
  obtain ⟨b, hp⟩ := (hiff v hlo hhi hv).mp hpresent
  rw [entry_eq h hp hv] at hmem
  obtain ⟨hcur, hwhole, _⟩ := hasPage_range h hp
  obtain ⟨q, hq, hb, hpage⟩ := hp
  have hapart := (h.apart _ hcur t ((listed_iff h.ring).mp ht) hne.symm q r hq hr).2
  exact hapart _ (frame_mem hwhole hpage hb) hmem

/-- What is legal with a cut that may be above the middle: images end at the cut or
below, and no page fault is between the middle and the cut. -/
def LegalAt (cut : Nat) (E : Env) (I : Image) (s : State) : Op → Prop
  | .uspawn data bsz entry argv => uspaceBot + wholeSize I data.length bsz argv ≤ cut ∧
      Supplied (uspawn E I data bsz entry argv s)
  | .kspawn func => Supplied (kspawn E I func s)
  | .yield _ => True
  | .pageFault cr2 => UserFault s cr2 ∧ (cr2 < middle ∨ cut ≤ cr2) ∧
      Supplied (Scheduler.pageFault E userWrite cr2 s)

/-- The middle is a cut for every legal call. -/
theorem Legal.at_middle {a : Op} (h : Legal E I s a) : LegalAt middle E I s a := by
  cases a with
  | uspawn data bsz entry argv => exact ⟨h.1.le, h.2⟩
  | kspawn func => exact h
  | yield rsp => exact h
  | pageFault cr2 => exact ⟨h.1, Nat.lt_or_ge cr2 middle, h.2⟩

/-- The threads stay, and those that are not the current one are left alone. -/
def Kept (s s' : State) (l l' : List Ptr) : Prop :=
  ∀ t ∈ l, t ∈ l' ∧ (t ≠ s.curThrd → Untouched s s' t)

/-- Every legal call returns, keeps the invariant and leaves the other threads alone. -/
theorem call_inv (h : Inv cut s l) {a : Op} (hlegal : LegalAt cut E I s a) :
    ∃ s' l', Step E I s a s' () ∧ Inv cut s' l' ∧ Kept s s' l l' := by
  cases a with
  | uspawn data bsz entry argv =>
    obtain ⟨hend, hpages⟩ := hlegal
    have hword : wholeSize I data.length bsz argv < wordSize := by
      have hcut := h.split.word
      omega
    obtain ⟨x, hcall, _, _, _, _, t, _, _, _, hspawned⟩ :=
      exists_of_returns (uspawn_spec (E := E) h.base hword entry) hpages
    refine ⟨x.1, insertSecond t l, ⟨0, ?_⟩, hspawned.inv h hend, ?_⟩
    · rw [call, hcall]
      rfl
    · intro u hu
      refine ⟨mem_insertSecond.mpr (.inr hu), ?_⟩
      intro _
      exact (untouched_quiet h (hspawned.quiet.trans hspawned.thread.quiet) hu).trans
        (untouched_enlisted hspawned.thread.listed)
  | kspawn func =>
    obtain ⟨x, hcall, _, t, _, _, _, hspawned⟩ :=
      exists_of_returns (kspawn_spec (E := E) (I := I) h.base func) hlegal
    refine ⟨x.1, insertSecond t l, ⟨0, ?_⟩, hspawned.inv h, ?_⟩
    · rw [call, hcall]
      rfl
    · intro u hu
      refine ⟨mem_insertSecond.mpr (.inr hu), ?_⟩
      intro _
      exact (untouched_quiet h (hspawned.quiet.trans hspawned.thread.quiet) hu).trans
        (untouched_enlisted hspawned.thread.listed)
  | yield rsp =>
    obtain ⟨n, s', l', hy, hinv, hmem, hsame⟩ := yield_inv h rsp
    exact ⟨s', l', ⟨n, hy⟩, hinv, fun u hu => ⟨(hmem u).mpr hu, hsame u⟩⟩
  | pageFault cr2 =>
    obtain ⟨hfault, hside, hpages⟩ := hlegal
    obtain ⟨s', hcall, hinv, space, _, _, rfl, hserved⟩ :=
      exists_of_returns (pageFault_inv (E := E) h hfault hside) hpages
    have hcur := h.cur hfault.cur
    refine ⟨_, l, ⟨0, hcall⟩, hinv, fun u hu => ⟨hu, fun hne => ?_⟩⟩
    rcases hserved with hserved | hserved
    · exact untouched_served h hserved hcur ⟨(h.each _ hcur).some, .inl rfl⟩ hu hne
    · exact untouched_served h hserved hcur ⟨hfault.user, .inr rfl⟩ hu hne

/-- Over every run of legal calls the address spaces of the threads are isolated. -/
theorem isolation (hboot : Boot s) {ops : List Op}
    (hlegal : Whenever (Step E I) (Legal E I) s ops) :
    Along (Step E I) (fun _ _ s' _ => Isolated s') s ops := by
  have hstep : ∀ s a, (∃ l, Inv middle s l) → Legal E I s a →
      ∃ s' b, Step E I s a s' b ∧ Isolated s' ∧ ∃ l, Inv middle s' l := by
    intro s a ⟨l, hinv⟩ hop
    obtain ⟨s', l', hcall, hinv', _⟩ := call_inv hinv hop.at_middle
    exact ⟨s', (), hcall, hinv'.isolated, l', hinv'⟩
  exact along_of_invariant hstep ⟨[], hboot.inv isCut_middle⟩ hlegal

/-- A call has one result, whatever the fuel. -/
theorem call_unique {n m : Nat} {a : Op} {s₁ s₂ : State} (h₁ : call E I n s a = .ok s₁)
    (h₂ : call E I m s a = .ok s₂) : s₁ = s₂ := by
  cases a with
  | yield rsp =>
    have hmono : ∀ {n m s'}, n ≤ m → Scheduler.yield n rsp s = .ok s' →
        Scheduler.yield m rsp s = .ok s' := by
      intro n m s' hle h
      rw [Scheduler.yield] at h ⊢
      split at h
      · rename_i hidle
        rw [if_pos hidle]
        exact h
      · rename_i hgo
        rw [if_neg hgo]
        cases hn : searchThread n s with
        | none =>
          rw [hn] at h
          cases h
        | some r =>
          rw [hn] at h
          rw [searchThread_mono hn hle]
          exact h
    have h₁ := hmono (Nat.le_max_left n m) h₁
    have h₂ := hmono (Nat.le_max_right n m) h₂
    exact Except.ok.inj (h₁.symm.trans h₂)
  | _ => exact Except.ok.inj (h₁.symm.trans h₂)

/-- A step is computed by its call. -/
theorem call_computes (n : Nat) :
    Computes (fun s a => ((call E I n s a).toOption).map fun s' => (s', ())) (Step E I) := by
  intro s a s₁ b₁ s' b h ⟨m, hm⟩
  cases hn : call E I n s a with
  | error f =>
    simp only [hn, Except.toOption, Option.map_none] at h
    cases h
  | ok s₂ =>
    simp only [hn, Except.toOption, Option.map_some, Option.some.injEq, Prod.mk.injEq] at h
    exact ⟨(call_unique hm hn).trans h.1, rfl⟩

end Isolation

instance (s : State) (cr2 : Nat) : Decidable (UserFault s cr2) :=
  decidable_of_iff (codeOf s s.curThrd ≠ NULL ∧ (uspaceBot ≤ cr2 ∧ cr2 < lowHalfTop) ∧
    s.space.map (floor cr2 pageSize) % 2 = 0)
    ⟨fun ⟨huser, hrange, habsent⟩ => ⟨huser, hrange, habsent⟩,
      fun h => ⟨h.user, h.range, h.absent⟩⟩

instance {α : Type} (x : Except Fault α) : Decidable (Supplied x) :=
  match x with
  | .ok _ => .isTrue fun h => nomatch h
  | .error f => decidable_of_iff (f ≠ .noPages)
      ⟨fun hne h => hne (Except.error.inj h), fun hne heq => hne (congrArg _ heq)⟩

instance (E : Env) (I : Image) (s : State) : (a : Op) → Decidable (Legal E I s a)
  | .uspawn .. => inferInstanceAs (Decidable (_ ∧ _))
  | .kspawn _ => inferInstanceAs (Decidable (Supplied _))
  | .yield _ => inferInstanceAs (Decidable True)
  | .pageFault _ => inferInstanceAs (Decidable (_ ∧ _))

/-- Frames from the second megabyte on, and the pages of the high half. -/
def smallEnv : Env where
  kalloc := .above
  phys := .between 0x100000 0x10000000 (by decide)
  virt := .upward
  wide h := (PageSource.between_bounds h).2.trans (by decide)
  high h := (PageSource.between_bounds h).1

/-- A preamble of the least length. -/
def smallImage : Image where
  preamble := List.replicate 29 0x90
  long := by simp
  flags := 0x2

def bootState : State where
  space := {
    rgn := fun _ => ⟨0, 0, [], true⟩, used := [], swapped := [], map := fun _ => 0
    mem := fun _ => 0, frames := [], vpages := [], refused := 0 }
  proc _ := ⟨0, 0, 0, 0⟩
  thr _ := ⟨0, 0, 0, 0, 0, .SETUP, 0⟩
  headProc := NULL
  headThrd := NULL
  curThrd := NULL
  schedulerLock := .UNLOCKED

/-- There is a start. -/
theorem bootState_boot : Boot bootState :=
  ⟨rfl, rfl, rfl, fun _ _ _ _ => rfl, rfl, rfl⟩

/-- A process with an argument and a kernel thread take turns, and the process
reaches past its image and down its stack. -/
theorem isolation_of_two :
    Along (Step smallEnv smallImage) (fun _ _ s' _ => Isolated s') bootState
      [.uspawn [0x90, 0xC3] 8 0x200000 [⟨[0x61], by decide⟩], .kspawn 0x1000, .yield 0,
        .pageFault 0x400123, .pageFault 0x7FFFFFFE0000, .yield 0x10, .yield 0x20] := by
  refine isolation bootState_boot (whenever_of_checkRun (call_computes 10) ?_)
  decide +kernel

end Frosk.Scheduler
