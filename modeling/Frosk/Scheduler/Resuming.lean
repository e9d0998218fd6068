import Mathlib.Tactic
import Frosk.Scheduler.Places

/-!
# Scheduler: threads are resumed as they were

The machine runs threads: they make calls, compute and store to their memory, and the
timer interrupts them. A thread that is switched away from sleeps (`Asleep`): its
registers are on its stack, its floating point state is in its block, and nobody but
itself gets to its memory. Whatever happens until it is switched to again, it then
goes on as if it had not been interrupted (`Resumes`): registers, floating point
state and the memory that it sees are as before, but for the bytes of its stack that
the interrupt took: the `savedSize` bytes that it pushed, and below them the frames
of `swapflop` if it switched to another thread.

Main result: `resumed`.
-/

namespace Frosk.Scheduler

open Lib Regions

/-- What happens on the machine. After a call, and after computing for a while, a
thread may have any registers. -/
inductive Event (Fx : Type) where
  | call (op : Op) (ctx : Context) (fpu : Fx)
  | run (stores : List (Nat × UInt8)) (ctx : Context) (fpu : Fx)
  | timer (h : Handler)

section Machine

variable {Fx : Type}

def storeAll (stores : List (Nat × UInt8)) (s : Space) : Except Fault Space :=
  stores.foldlM (fun s x => storeByte x.1 x.2 s) s

def Machine.event (E : Env) (I : Image) (n ret : Nat) (m : Machine Fx) :
    Event Fx → Except Fault (Machine Fx)
  | .call op ctx fpu => do
    let s ← call E I n m.s op
    .ok { m with s := s, ctx := ctx, fpu := fpu }
  | .run stores ctx fpu => do
    let space ← storeAll stores m.s.space
    .ok { m with s := { m.s with space := space }, ctx := ctx, fpu := fpu }
  | .timer h => timerIrq n ret h m

def Occurs (E : Env) (I : Image) (ret : Nat) (m : Machine Fx) (e : Event Fx) (m' : Machine Fx) :
    Prop :=
  ∃ n, m.event E I n ret e = .ok m'

/-- The `n` bytes below `top` are mapped, below the user's space, and not handed out. -/
def KernelRoom (s : Space) (top n : Nat) : Prop :=
  ∃ b, Reached s b ∧ b.virt + n ≤ top ∧ top ≤ b.virt + b.size ∧ b.virt + b.size ≤ uspaceBot ∧
    ∀ k < b.size, (b.phys + k) / pageSize * pageSize ∉ s.frames

/-- The stack that an interrupt pushes to has room for `n` bytes: the two pages at the top of
that of a thread, or, before there is a thread, the stack of the boot code. -/
def Room (m : Machine Fx) (n : Nat) : Prop :=
  if m.s.curThrd = NULL then KernelRoom m.s.space (kernelRsp m.ctx) n
  else stackBot + n ≤ kernelRsp m.ctx ∧ kernelRsp m.ctx ≤ lowHalfTop

/-- Calls are legal, but for `yield`, which only `timer_irq` calls; threads store to
what is present in the low half; interrupts find room, also for the calls of `swapflop`. -/
def Permitted (cut : Nat) (E : Env) (I : Image) (m : Machine Fx) : Event Fx → Prop
  | .call op _ _ => LegalAt cut E I m.s op ∧ ∀ rsp, op ≠ .yield rsp
  | .run stores _ _ => ∀ x ∈ stores, (uspaceBot ≤ x.1 ∧ x.1 < lowHalfTop) ∧
      m.s.space.map (x.1 / pageSize * pageSize) % 2 = 1
  | .timer h => Room m h.depth ∧ KernelRoom m.s.space handlerStack h.stack.length

/-- The address is not one of the `n` bytes that an interrupt takes of the stack. -/
def Outside (n : Nat) (c : Context) (a : Nat) : Prop := a < kernelRsp c - n ∨ kernelRsp c ≤ a

/-- The thread that ran in `m` goes on in `m'`, when the interrupt took `n` bytes of its stack. -/
structure Resumes (n : Nat) (m m' : Machine Fx) : Prop where
  ctx    : m'.ctx = m.ctx
  fpu    : m'.fpu = m.fpu
  memory : ∀ a, uspaceBot ≤ a → a < lowHalfTop → Outside n m.ctx a →
    loadByte m'.s.space a = loadByte m.s.space a

/-- In `m` the thread `t` sleeps since it ran in `m₀` and was interrupted by `h`. -/
structure Asleep (ret : Nat) (h : Handler) (m₀ m : Machine Fx) (t : Ptr) : Prop where
  rsp    : (m.s.thr t).rsp = kernelRsp m₀.ctx - savedSize
  saved  : Holds m.s t (kernelRsp m₀.ctx - savedSize) (savedImage ret h.flags m₀.ctx)
  block  : m.block t = m₀.fpu
  memory : ∀ a, uspaceBot ≤ a → a < lowHalfTop → Outside h.depth m₀.ctx a → ∀ c,
    Seen m.s t a c ↔ loadByte m₀.s.space a = some c

/-- A thread that does not run can be switched to. -/
def Waits (I : Image) (ret : Nat) (s : State) (t : Ptr) : Prop :=
  Begins I s t ∨ ∃ flags c, Holds s t (s.thr t).rsp (savedImage ret flags c)

structure Good (cut : Nat) (I : Image) (ret : Nat) (m : Machine Fx) (l : List Ptr) : Prop where
  inv    : Inv cut m.s l
  backed : ∀ t ∈ l, WellPlaced m.s t
  waits  : ∀ t ∈ l, t ≠ m.s.curThrd → Waits I ret m.s t

/-- The thread is left alone. -/
structure Leaves (m m' : Machine Fx) (t : Ptr) : Prop where
  untouched : Untouched m.s m'.s t
  block     : m'.block t = m.block t

variable {E : Env} {I : Image} {cut ret flags : Nat} {hd : Handler} {m₀ m m' : Machine Fx}
  {s s' : State} {l : List Ptr} {t : Ptr}

/-- A thread that waits goes on waiting while it is untouched. -/
theorem Waits.untouched (h : Inv cut s l) (ht : t ∈ l) (hu : Untouched s s' t)
    (hw : Waits I ret s t) : Waits I ret s' t := by
  rcases hw with ⟨start, extv, kthrd, hh⟩ | ⟨flags, c, hh⟩
  · refine .inl ⟨start, extv, kthrd, ?_⟩
    rw [hu.rsp]
    exact hh.untouched h ht hu
  · refine .inr ⟨flags, c, ?_⟩
    rw [hu.rsp]
    exact hh.untouched h ht hu

/-- So does one that is asleep. -/
theorem Asleep.leaves (h : Inv cut m.s l) (ht : t ∈ l) (hl : Leaves m m' t)
    (hs : Asleep ret hd m₀ m t) : Asleep ret hd m₀ m' t :=
  ⟨hl.untouched.rsp.trans hs.rsp, hs.saved.untouched h ht hl.untouched, hl.block.trans hs.block,
    fun a hlo hhi hout c => (seen_untouched h ht hl.untouched).trans (hs.memory a hlo hhi hout c)⟩

-- ---------------------------------------------------------------------------
-- Calls and stores
-- ---------------------------------------------------------------------------

/-- The threads stay, and those that do not run are left alone. -/
def Spared (m m' : Machine Fx) (l l' : List Ptr) : Prop :=
  ∀ t ∈ l, t ∈ l' ∧ (t ≠ m.s.curThrd → Leaves m m' t)

/-- A permitted call occurs and spares the sleeping threads. -/
theorem call_good (h : Good cut I ret m l) {op : Op} {ctx : Context} {fpu : Fx}
    (hp : Permitted cut E I m (.call op ctx fpu)) :
    ∃ m' l', Occurs E I ret m (.call op ctx fpu) m' ∧ Good cut I ret m' l' ∧ Spared m m' l l' := by
  obtain ⟨hlegal, hop⟩ := hp
  obtain ⟨s', l', ⟨n, hn⟩, hcalled⟩ := call_backed h.inv h.backed hop hlegal
  refine ⟨⟨s', ctx, fpu, m.block⟩, l', ⟨n, ?_⟩, ⟨hcalled.inv, hcalled.backed, fun t ht hne => ?_⟩,
    fun t ht => ?_⟩
  · rw [Machine.event, hn, ok_bind]
  · have hcur : t ≠ m.s.curThrd := hcalled.cur ▸ hne
    by_cases hold : t ∈ l
    · exact (h.waits t hold hcur).untouched h.inv hold ((hcalled.kept t hold).2 hcur)
    · exact .inl (hcalled.begins t ht hold)
  · exact ⟨(hcalled.kept t ht).1, fun hne => ⟨(hcalled.kept t ht).2 hne, rfl⟩⟩

/-- A thread stores to its own places. -/
theorem storeAll_spec (h : Inv cut s l) (hb : ∀ t ∈ l, WellPlaced s t) (stores : List (Nat × UInt8))
    (hp : ∀ x ∈ stores, (uspaceBot ≤ x.1 ∧ x.1 < lowHalfTop) ∧
      s.space.map (x.1 / pageSize * pageSize) % 2 = 1) :
    ∃ mem, storeAll stores s.space = .ok { s.space with mem := mem } ∧
      ∀ p, (∀ a, ¬ Place s s.curThrd a p) → mem p = s.space.mem p := by
  induction stores generalizing s with
  | nil => exact ⟨s.space.mem, rfl, fun _ _ => rfl⟩
  | cons x stores ih =>
    obtain ⟨hrange, hpresent⟩ := hp x List.mem_cons_self
    obtain ⟨p, hplace⟩ := place_of_present h hrange hpresent
    have hstore := (place_load h (hb _ (h.cur hplace.ne_null)) hplace).2 x.2
    obtain ⟨mem, hrest, hsame⟩ := ih (s := { s with space := { s.space with
      mem := s.space.mem.blit p [x.2] } }) (inv_mem h _)
      (fun t ht => (hb t ht).congr rfl rfl (h.each t ht).some fun _ _ => rfl)
      (fun y hy => hp y (List.mem_cons_of_mem _ hy))
    refine ⟨mem, ?_, fun q hq => (hsame q hq).trans ?_⟩
    · rw [storeAll, List.foldlM_cons, hstore, ok_bind]
      exact hrest
    · have hne : q ≠ p := fun heq => hq _ (heq ▸ hplace)
      exact Memory.blit_outside (by simp; omega)

/-- The run of a thread occurs and spares the sleeping threads. -/
theorem run_good (h : Good cut I ret m l) {stores : List (Nat × UInt8)} {ctx : Context} {fpu : Fx}
    (hp : Permitted cut E I m (.run stores ctx fpu)) :
    ∃ m' l', Occurs E I ret m (.run stores ctx fpu) m' ∧ Good cut I ret m' l' ∧ Spared m m' l l' := by
  obtain ⟨mem, hstore, hsame⟩ := storeAll_spec h.inv h.backed stores hp
  have huntouched : ∀ t ∈ l, t ≠ m.s.curThrd →
      Untouched m.s { m.s with space := { m.s.space with mem := mem } } t := by
    intro t ht hne
    refine untouched_mem h.inv ht fun a p hplace => hsame p fun a' hplace' => ?_
    exact place_apart h.inv ht (h.inv.cur hplace'.ne_null) hne hplace hplace' rfl
  refine ⟨⟨{ m.s with space := { m.s.space with mem := mem } }, ctx, fpu, m.block⟩, l, ⟨0, ?_⟩,
    ⟨inv_mem h.inv mem, fun t ht => ?_, fun t ht hne => ?_⟩,
    fun t ht => ⟨ht, fun hne => ⟨huntouched t ht hne, rfl⟩⟩⟩
  · rw [Machine.event, hstore, ok_bind]
  · exact (h.backed t ht).congr rfl rfl (h.inv.each t ht).some fun _ _ => rfl
  · exact (h.waits t ht hne).untouched h.inv ht (huntouched t ht hne)

-- ---------------------------------------------------------------------------
-- What an interrupt pushes
-- ---------------------------------------------------------------------------

/-- Memory after an interrupt stored `image` below the stack pointer. -/
structure Pushed (m : Machine Fx) (l : List Ptr) (image : List UInt8) (mem : Memory) : Prop where
  others  : ∀ t ∈ l, t ≠ m.s.curThrd → ∀ a p, Place m.s t a p → mem p = m.s.space.mem p
  outside : ∀ a p, Place m.s m.s.curThrd a p → Outside image.length m.ctx a → mem p = m.s.space.mem p
  saved   : m.s.curThrd ≠ NULL →
    Holds { m.s with space := { m.s.space with mem := mem } } m.s.curThrd
      (kernelRsp m.ctx - image.length) image
  load    : loadBytes { m.s.space with mem := mem } (kernelRsp m.ctx - image.length) image.length = some image
  word    : kernelRsp m.ctx < wordSize ∧ image.length ≤ kernelRsp m.ctx

/-- Less room is there as well. -/
theorem KernelRoom.less {s : Space} {top n k : Nat} (h : KernelRoom s top n)
    (hle : k ≤ n) : KernelRoom s top k := by
  obtain ⟨b, hreached, hlow, hrest⟩ := h
  exact ⟨b, hreached, by omega, hrest⟩

theorem Room.less {n k : Nat} (h : Room m n) (hle : k ≤ n) : Room m k := by
  unfold Room at *
  split at h
  next hcur =>
    rw [if_pos hcur]
    exact h.less hle
  next hcur =>
    rw [if_neg hcur]
    omega

/-- The block that an interrupt pushes to. -/
theorem Good.block {n : Nat} (h : Good cut I ret m l) (hroom : Room m n) :
    ∃ b, Reached m.s.space b ∧ b.virt + n ≤ kernelRsp m.ctx ∧
      kernelRsp m.ctx ≤ b.virt + b.size ∧ b.virt + b.size ≤ lowHalfTop ∧
      (m.s.curThrd ≠ NULL → b ∈ (m.s.space.rgn (stackOf m.s m.s.curThrd)).blocks) ∧
      (m.s.curThrd = NULL → ∀ k < b.size, (b.phys + k) / pageSize * pageSize ∉ m.s.space.frames) := by
  unfold Room at hroom
  split at hroom
  next hcur =>
    obtain ⟨b, hreached, hlow, hhigh, hbelow, hspare⟩ := hroom
    exact ⟨b, hreached, hlow, hhigh, hbelow.trans (by decide), fun hne => absurd hcur hne,
      fun _ => hspare⟩
  next hcur =>
    have hmem := h.inv.cur hcur
    have hok := h.inv.each _ hmem
    obtain ⟨phys, htop⟩ := (h.backed _ hmem).top
    have hmapped := h.inv.mapped (h.backed _ hmem) ⟨hok.some, .inl rfl⟩ htop
    have hend : stackBot + 2 * pageSize = lowHalfTop := by decide
    refine ⟨_, hmapped.reached, hroom.1, ?_, hend.le, fun _ => htop, fun heq => absurd heq hcur⟩
    exact hroom.2.trans hend.ge

/-- With room for them the words are pushed. -/
theorem pushes_spec (h : Good cut I ret m l) (ws : List (List UInt8)) {image : List UInt8}
    (himage : ws.reverse.flatten = image) (hroom : Room m image.length) :
    ∃ mem, pushAll ws m.s.space (kernelRsp m.ctx) =
        .ok ({ m.s.space with mem := mem }, kernelRsp m.ctx - image.length) ∧ Pushed m l image mem := by
  obtain ⟨b, hreached, hlow, hhigh, htop, hown, hspare⟩ := h.block hroom
  have hlowHalf : lowHalfTop < wordSize := by decide
  have hlen : ws.flatten.length = image.length := by
    rw [← himage]
    simp [List.length_flatten]
  have hpush := pushAll_spec hreached ws (k := kernelRsp m.ctx - b.virt) (by omega) (by omega) (by omega)
  have hrsp : b.virt + (kernelRsp m.ctx - b.virt) = kernelRsp m.ctx := by omega
  have hdown : b.virt + (kernelRsp m.ctx - b.virt - image.length) = kernelRsp m.ctx - image.length := by
    omega
  rw [hlen, hrsp, hdown, himage] at hpush
  obtain ⟨mem, hmem⟩ : ∃ mem, mem =
    m.s.space.mem.blit (b.phys + (kernelRsp m.ctx - b.virt - image.length)) image := ⟨_, rfl⟩
  rw [← hmem] at hpush
  -- what is behind the bytes that are pushed
  have hpushed : ∀ p, mem p ≠ m.s.space.mem p →
      b.phys + (kernelRsp m.ctx - b.virt - image.length) ≤ p ∧
        p < b.phys + (kernelRsp m.ctx - b.virt - image.length) + image.length := by
    intro p hne
    by_contra hout
    refine hne ?_
    rw [hmem]
    exact Memory.blit_outside (by omega)
  have hours : m.s.curThrd ≠ NULL → ∀ p, b.phys ≤ p → p < b.phys + b.size →
      Place m.s m.s.curThrd (b.virt + (p - b.phys)) p := by
    intro hcur p hlo hhi
    exact ⟨_, b, ⟨(h.inv.each _ (h.inv.cur hcur)).some, .inl rfl⟩, hown hcur, ⟨by omega, by omega⟩,
      by omega⟩
  refine ⟨mem, hpush, fun t ht hne a p hplace => ?_, fun a p hplace hout => ?_, fun hcur i hi => ?_, ?_,
    by omega, by omega⟩
  · by_contra hnot
    have hin := hpushed p hnot
    by_cases hcur : m.s.curThrd = NULL
    · obtain ⟨r, hr, hf⟩ := hplace.frame h.inv ht
      have hfree := hspare hcur (p - b.phys) (by omega)
      rw [Nat.add_sub_cancel' (by omega)] at hfree
      exact hfree (((h.inv.each t ht).owned r hr).2 _ hf)
    · exact place_apart h.inv ht (h.inv.cur hcur) hne hplace
        (hours hcur p (by omega) (by omega)) rfl
  · by_contra hnot
    have hin := hpushed p hnot
    have hcur := hplace.ne_null
    have hsame := (h.backed _ (h.inv.cur hcur)).one _ _ p hplace (hours hcur p (by omega) (by omega))
    unfold Outside at hout
    omega
  · have hplace := hours hcur (b.phys + (kernelRsp m.ctx - b.virt - image.length) + i) (by omega) (by omega)
    have ha : b.virt + (b.phys + (kernelRsp m.ctx - b.virt - image.length) + i - b.phys) =
        kernelRsp m.ctx - image.length + i := by omega
    rw [ha] at hplace
    refine ⟨_, hplace, ?_⟩
    show mem _ = _
    rw [hmem]
    exact Memory.blit_inside hi
  · have hreached' : Reached { m.s.space with mem := mem } b :=
      ⟨hreached.whole, hreached.wide, hreached.map⟩
    have hload := hreached'.loadBytes (k := kernelRsp m.ctx - b.virt - image.length) (n := image.length)
      (by omega)
    have hself := Memory.slice_blit_self (m := m.s.space.mem)
      (a := b.phys + (kernelRsp m.ctx - b.virt - image.length)) (l := image)
    rw [← hmem] at hself
    rw [hdown] at hload
    exact hload.trans (congrArg some hself)

-- ---------------------------------------------------------------------------
-- The interrupt
-- ---------------------------------------------------------------------------

/-- But for what the calls of `swapflop` leave, this is `yield`. -/
theorem yieldRsp_fst (n rsp : Nat) (hnone : hd.code = [] ∧ hd.stack = []) (s : State) :
    (yieldRsp n rsp hd s).map Prod.fst = yield n rsp s := by
  unfold yieldRsp yield
  split
  · rfl
  · cases searchThread n s with
    | none => rfl
    | some found =>
      cases found with
      | none => rfl
      | some t =>
        dsimp only
        have hcode : pushAll [hd.code] s.space rsp = .ok (s.space, wsub rsp 0) := by
          rw [hnone.1]
          rfl
        rw [yieldTo, hcode, ok_bind, hnone.2]
        dsimp only
        cases switchTo rsp t s <;> rfl

/-- The yield of the handler has one result, whatever the fuel. -/
theorem yieldRsp_unique {n k rsp : Nat} {x y : State × Nat} (hx : yieldRsp n rsp hd s = .ok x)
    (hy : yieldRsp k rsp hd s = .ok y) : x = y := by
  unfold yieldRsp at hx hy
  split at hx
  · rename_i hidle
    rw [if_pos hidle] at hy
    exact Except.ok.inj (hx.symm.trans hy)
  · rename_i hgo
    rw [if_neg hgo] at hy
    cases hn : searchThread n s with
    | none =>
      rw [hn] at hx
      cases hx
    | some r =>
      cases hk : searchThread k s with
      | none =>
        rw [hk] at hy
        cases hy
      | some r' =>
        have hmono := searchThread_mono hn (Nat.le_max_left n k)
        have hmono' := searchThread_mono hk (Nat.le_max_right n k)
        obtain rfl := Option.some.inj (hmono.symm.trans hmono')
        rw [hn] at hx
        rw [hk] at hy
        exact Except.ok.inj (hx.symm.trans hy)

/-- The search finds no other thread, or one to switch to. -/
theorem yieldRsp_cases (h : Inv cut s l) (rsp : Nat) (hd : Handler) :
    (∃ n, yieldRsp n rsp hd s = .ok (s, rsp)) ∨
      ∃ n t, t ∈ l ∧ t ≠ s.curThrd ∧ yieldRsp n rsp hd s = yieldTo rsp hd t s := by
  have hring := h.ring
  cases l with
  | nil =>
    refine .inl ⟨0, if_pos (.inr ?_)⟩
    exact hring.head
  | cons x l =>
    have hgo : ¬ (s.schedulerLock = .LOCKED ∨ s.headThrd = NULL) := by
      have hx : x ≠ NULL := fun heq => hring.null (heq ▸ List.mem_cons_self)
      have hhead : s.headThrd = x := hring.head
      simp [h.lock, hhead, hx]
    obtain ⟨n, hn⟩ := searchThread_spec hring (by simp)
    cases hfind : (x :: l).find? (Ready s) with
    | none =>
      refine .inl ⟨n, ?_⟩
      rw [yieldRsp, if_neg hgo, hn, hfind]
    | some t =>
      have hready : Ready s t = true := List.find?_some hfind
      refine .inr ⟨n, t, List.mem_of_find?_eq_some hfind, (of_decide_eq_true hready).2, ?_⟩
      rw [yieldRsp, if_neg hgo, hn, hfind]

/-- The switch to another thread. In memory, nothing of a thread changes. -/
structure Switches (cut : Nat) (s s' : State) (l l' : List Ptr) (rsp : Nat) (t : Ptr) : Prop where
  mem      : t ∈ l
  ne       : t ≠ s.curThrd
  inv      : Inv cut s' l'
  same     : ∀ u, u ∈ l' ↔ u ∈ l
  switched : Switched s s' rsp t
  rgn      : s'.space.rgn = s.space.rgn
  memory   : ∀ u ∈ l, ∀ a p, Place s u a p → s'.space.mem p = s.space.mem p

/-- A switch leaves the places of every thread. -/
theorem Switches.place {l' : List Ptr} {rsp : Nat} (h : Switches cut s s' l l' rsp t) {u : Ptr} {a p : Nat} :
    Place s' u a p ↔ Place s u a p :=
  place_congr (h.switched.stackOf_eq u) (h.switched.codeOf_eq u) fun _ _ => by rw [h.rgn]

/-- A switch to another thread returns and keeps the invariant. -/
theorem switchTo_kept (h : Inv cut s l) (ht : t ∈ l) (hne : t ≠ s.curThrd) (rsp : Nat) :
    ∃ s' l', switchTo rsp t s = .ok s' ∧ Switches cut s s' l l' rsp t ∧
      s'.space.frames = s.space.frames ∧ ∀ v < uspaceBot, s'.space.map v = s.space.map v := by
  obtain ⟨map, heq, -, -, hmap⟩ := switchTo_spec h ht hne rsp
  obtain ⟨l₁, l₂, rfl⟩ := List.mem_iff_append.mp ht
  obtain ⟨hinv, hsw⟩ := switchTo_inv h hne heq
  refine ⟨_, l₂ ++ (l₁ ++ [t]), heq, ⟨ht, hne, hinv, fun u => ?_, hsw, rfl, fun _ _ _ _ _ => rfl⟩, rfl, hmap⟩
  simp only [List.mem_append, List.mem_cons]
  tauto

/-- A store below `top` that no thread notices. -/
theorem KernelRoom.push (h : Inv cut s l) {top : Nat} {bytes : List UInt8}
    (hroom : KernelRoom s.space top bytes.length) :
    ∃ mem r, pushAll [bytes] s.space top = .ok ({ s.space with mem := mem }, r) ∧
      ∀ u ∈ l, ∀ a p, Place s u a p → mem p = s.space.mem p := by
  obtain ⟨b, hreached, hlow, hhigh, hbelow, hspare⟩ := hroom
  have hbot : uspaceBot < wordSize := by decide
  have hpush := pushAll_spec hreached [bytes] (k := top - b.virt) (by simp; omega) (by omega) (by omega)
  rw [show b.virt + (top - b.virt) = top by omega] at hpush
  refine ⟨_, _, hpush, fun u hu a p hplace => Memory.blit_outside ?_⟩
  by_contra hin
  simp only [List.flatten_singleton, List.reverse_singleton] at hin
  obtain ⟨r, hr, hf⟩ := hplace.frame h hu
  have hfree := hspare (p - b.phys) (by omega)
  rw [Nat.add_sub_cancel' (by omega)] at hfree
  exact hfree (((h.each u hu).owned r hr).2 _ hf)

/-- The bytes of the first call of `swapflop` are stored before the switch, on the stack of the old
thread, those of the second one after it, below what threads can have. -/
theorem yieldTo_spec {rsp : Nat} {space : Space} {r : Nat}
    (hcode : pushAll [hd.code] s.space rsp = .ok (space, r)) (h : Inv cut { s with space := space } l)
    (ht : t ∈ l) (hne : t ≠ s.curThrd) (hroom : KernelRoom space handlerStack hd.stack.length) :
    ∃ s' l', yieldTo rsp hd t s = .ok (s', (s'.thr t).rsp) ∧
      Switches cut { s with space := space } s' l l' rsp t := by
  obtain ⟨s₂, l', heq, hsw, hframes, hmap⟩ := switchTo_kept h ht hne rsp
  -- the handler's stack is still there
  have hroom' : KernelRoom s₂.space handlerStack hd.stack.length := by
    obtain ⟨b, ⟨hwhole, hwide, flags, hodd, hflags, hpages⟩, hlow, hhigh, hbelow, hspare⟩ := hroom
    refine ⟨b, ⟨hwhole, hwide, flags, hodd, hflags, ?_⟩, hlow, hhigh, hbelow, ?_⟩
    · intro v hv
      have hin : v < uspaceBot := by
        unfold Block.HasPage at hv
        omega
      exact (hmap v hin).trans (hpages v hv)
    · rw [hframes]
      exact hspare
  obtain ⟨mem, r', hpush, hmem⟩ := hroom'.push hsw.inv
  refine ⟨{ s₂ with space := { s₂.space with mem := mem } }, l', ?_, hsw.mem, hsw.ne, inv_mem hsw.inv mem,
    hsw.same, ?_, hsw.rgn, fun u hu a p hplace => ?_⟩
  · rw [yieldTo, hcode, ok_bind]
    dsimp only
    rw [heq, ok_bind, hpush, ok_bind]
  · obtain ⟨hsame, hcur, hhead, hnext, hstate, hrsp, hlock⟩ := hsw.switched
    exact ⟨⟨hsame.stack, hsame.parent, hsame.code⟩, hcur, hhead, hnext, hstate, hrsp, hlock⟩
  · exact (hmem u ((hsw.same u).mpr hu) a p (hsw.place.mpr hplace)).trans (hsw.memory u hu a p hplace)

section Switches

variable {l' : List Ptr} {rsp : Nat} {u : Ptr}

/-- What a thread sees does not change. -/
theorem Switches.seen (h : Switches cut s s' l l' rsp t) (hu : u ∈ l) {a : Nat} {c : UInt8} :
    Seen s' u a c ↔ Seen s u a c := by
  constructor
  · rintro ⟨p, hp, rfl⟩
    rw [h.place] at hp
    exact ⟨p, hp, (h.memory u hu a p hp).symm⟩
  · rintro ⟨p, hp, rfl⟩
    exact ⟨p, h.place.mpr hp, h.memory u hu a p hp⟩

/-- All threads but the one that is left are untouched. -/
theorem Switches.untouched (h : Switches cut s s' l l' rsp t) (hinv : Inv cut s l) (hu : u ∈ l)
    (hne : u ≠ s.curThrd) : Untouched s s' u := by
  refine ⟨?_, h.switched.stackOf_eq u, h.switched.codeOf_eq u, fun _ _ => by rw [h.rgn],
    fun r hr f hf i hi => ?_⟩
  · rw [h.switched.rsp, if_neg fun hand => hne hand.1]
  · obtain ⟨a, hp⟩ := place_of_frame hinv hu hr hf hi
    exact h.memory u hu a _ hp

end Switches

/-- What a timer interrupt does to the threads. -/
structure Turned (ret : Nat) (hd : Handler) (m m' : Machine Fx) (l : List Ptr) : Prop where
  others : ∀ t ∈ l, t ≠ m.s.curThrd → Leaves m m' t
  same   : m'.s.curThrd = m.s.curThrd → Resumes savedSize m m'
  sleeps : m.s.curThrd ≠ NULL → m'.s.curThrd ≠ m.s.curThrd → Asleep ret hd m m' m.s.curThrd
  wakes  : m'.s.curThrd ≠ m.s.curThrd → ∀ m₀ hd₀, Asleep ret hd₀ m₀ m m'.s.curThrd →
    Resumes hd₀.depth m₀ m'

/-- A byte that the interrupt does not store over. -/
theorem Pushed.seen {image : List UInt8} {mem : Memory} (h : Pushed m l image mem) {a : Nat}
    (hout : Outside image.length m.ctx a) {c : UInt8} :
    Seen { m.s with space := { m.s.space with mem := mem } } m.s.curThrd a c ↔
      Seen m.s m.s.curThrd a c := by
  constructor
  · rintro ⟨p, hp, rfl⟩
    exact ⟨p, hp, (h.outside a p hp hout).symm⟩
  · rintro ⟨p, hp, rfl⟩
    exact ⟨p, hp, h.outside a p hp hout⟩

/-- The thread that is switched to leaves `yield`; if it slept, as it was. -/
theorem waits_leave (fpu : Fx) (block : Ptr → Fx) (h : Inv cut s l) (hb : ∀ t ∈ l, WellPlaced s t)
    (hcur : s.curThrd ∈ l) (hw : Waits I ret s s.curThrd) (hret : ret < wordSize) (left : Context) :
    ∃ c fpu', leave ret left fpu block s (s.thr s.curThrd).rsp = .ok ⟨s, c, fpu', block⟩ ∧
      ∀ flags c₀, Holds s s.curThrd (s.thr s.curThrd).rsp (savedImage ret flags c₀) →
        c = c₀ ∧ fpu' = block s.curThrd := by
  have hword : ∀ {a ws}, ws ≠ [] → Holds s s.curThrd a ws → a + ws.length < wordSize := by
    intro a ws hne hh
    have hpos := List.length_pos_of_ne_nil hne
    obtain ⟨p, hp, -⟩ := hh (ws.length - 1) (by omega)
    have hrange := (hp.range h hcur).2
    unfold lowHalfTop wordSize at *
    omega
  have hsaved : ∀ flags c₀, Holds s s.curThrd (s.thr s.curThrd).rsp (savedImage ret flags c₀) →
      leave ret left fpu block s (s.thr s.curThrd).rsp =
        .ok ⟨s, c₀, block s.curThrd, block⟩ := by
    intro flags c₀ hh
    have hlen := savedImage_length ret flags c₀
    have hload := hh.load h (hb _ hcur)
    have hsmall := hword (fun hnil => by rw [hnil] at hlen; cases hlen) hh
    rw [hlen] at hload hsmall
    rw [leave_saved _ _ hload hsmall hret left, if_neg (h.nonnull hcur)]
  rcases hw with ⟨start, extv, kthrd, hh⟩ | ⟨flags, c, hh⟩
  · have hload := hh.load h (hb _ hcur)
    have hlen := startFrame_length (I := I) start extv kthrd
    have hsmall := hword (fun hnil => by rw [hnil, List.length_nil] at hlen; omega) hh
    rw [hlen] at hsmall
    have hstacked : Stacked s.space (s.thr s.curThrd).rsp
        ((startFrame I start extv kthrd).map (leBytes 8)) := by
      rw [Stacked, ← List.flatMap_def]
      exact hload
    refine ⟨_, _, leave_begun hstacked (by omega) left, ?_⟩
    intro flags c₀ hsleep
    -- the word on top of the stack is 1 or 0
    obtain ⟨p, hp, hone⟩ := hh 0 (by omega)
    obtain ⟨q, hq, hzero⟩ := hsleep 0 (by rw [savedImage_length]; decide)
    have hfirst := (place_load h (hb _ hcur) hp).1.symm.trans (place_load h (hb _ hcur) hq).1
    rw [hone, hzero] at hfirst
    have hbytes : (1 : UInt8) = 0 := Option.some.inj hfirst
    exact absurd hbytes (by decide)
  · refine ⟨_, _, hsaved flags c hh, ?_⟩
    intro flags₀ c₀ hsleep
    have heq := (hsaved flags c hh).symm.trans (hsaved flags₀ c₀ hsleep)
    exact ⟨congrArg Machine.ctx (Except.ok.inj heq), rfl⟩

/-- The state when the registers are saved and `below` is stored below them, with the blocks of
the threads. -/
structure Interrupted (cut ret flags : Nat) (below : List UInt8) (m : Machine Fx) (l : List Ptr)
    (s : State) (block : Ptr → Fx) : Prop where
  inv    : Inv cut s l
  backed : ∀ t ∈ l, WellPlaced s t
  cur    : s.curThrd = m.s.curThrd
  others : ∀ t ∈ l, t ≠ m.s.curThrd → Untouched m.s s t ∧ block t = m.block t
  seen   : ∀ a, Outside (below.length + savedSize) m.ctx a → ∀ c,
    Seen s m.s.curThrd a c ↔ Seen m.s m.s.curThrd a c
  saved  : m.s.curThrd ≠ NULL → block m.s.curThrd = m.fpu ∧
    Holds s m.s.curThrd (kernelRsp m.ctx - savedSize) (savedImage ret flags m.ctx)
  load   : loadBytes s.space (kernelRsp m.ctx - savedSize) savedSize = some (savedImage ret flags m.ctx)
  word   : kernelRsp m.ctx < wordSize ∧ savedSize ≤ kernelRsp m.ctx

/-- The `fxsave_block`s when the floating point state is saved. -/
def Machine.saveBlock (m : Machine Fx) : Ptr → Fx :=
  if m.s.curThrd = NULL then m.block else Function.update m.block m.s.curThrd m.fpu

/-- The handler saves the context on the stack of the thread. -/
theorem interrupted (h : Good cut I ret m l) (ws : List (List UInt8)) {below : List UInt8}
    (hws : ws.reverse.flatten = below ++ savedImage ret flags m.ctx)
    (hroom : Room m (below.length + savedSize)) :
    ∃ space, pushAll ws m.s.space (kernelRsp m.ctx) =
        .ok (space, kernelRsp m.ctx - (below.length + savedSize)) ∧
      Interrupted cut ret flags below m l { m.s with space := space } m.saveBlock ∧
      ∀ top n, KernelRoom m.s.space top n → KernelRoom space top n := by
  have hlen : (below ++ savedImage ret flags m.ctx).length = below.length + savedSize := by
    rw [List.length_append, savedImage_length]
  obtain ⟨mem, hpush, hpushed⟩ := pushes_spec h ws hws (by rwa [hlen])
  rw [hlen] at hpush
  have hseen := fun {a} (hout : Outside _ m.ctx a) {c} => hpushed.seen hout (c := c)
  obtain ⟨hothers, -, hsaved, hload, hword, hdeep⟩ := hpushed
  rw [hlen] at hsaved hload hdeep
  have hplace :
      kernelRsp m.ctx - (below.length + savedSize) + below.length = kernelRsp m.ctx - savedSize := by
    omega
  refine ⟨_, hpush, ⟨inv_mem h.inv mem, fun t ht => ?_, rfl, fun t ht hne => ⟨?_, ?_⟩, fun a hout c => ?_,
    fun hne => ⟨?_, fun i hi => ?_⟩, ?_, hword, by omega⟩, fun top n hroom => ?_⟩
  · exact (h.backed t ht).congr rfl rfl (h.inv.each t ht).some fun _ _ => rfl
  · exact untouched_mem h.inv ht (hothers t ht hne)
  · unfold Machine.saveBlock
    split
    · rfl
    · exact Function.update_of_ne hne ..
  · exact hseen (by rwa [hlen])
  · rw [Machine.saveBlock, if_neg hne, Function.update_self]
  · rw [savedImage_length] at hi
    have hbyte := hsaved hne (below.length + i) (by omega)
    rw [← Nat.add_assoc, hplace, List.getElem_append_right (Nat.le_add_right ..)] at hbyte
    simpa only [Nat.add_sub_cancel_left] using hbyte
  · have hsplit := (show Stacked { m.s.space with mem := mem } (kernelRsp m.ctx - (below.length + savedSize))
        ([below] ++ [savedImage ret flags m.ctx]) by
      simpa [Stacked, savedImage_length] using hload).append.2
    rw [List.flatten_singleton, hplace, Stacked, List.flatten_singleton, savedImage_length] at hsplit
    exact hsplit
  · obtain ⟨b, hreached, hrest⟩ := hroom
    exact ⟨b, ⟨hreached.whole, hreached.wide, hreached.map⟩, hrest⟩

section Interrupted

variable {block : Ptr → Fx}

/-- Nothing else is ready: the thread goes on at once. -/
theorem Interrupted.stays (hi : Interrupted cut ret hd.flags [] m l s block) (h : Good cut I ret m l)
    (hret : ret < wordSize) (left : Context) :
    ∃ m', leave ret left m.fpu block s (kernelRsp m.ctx - savedSize) = .ok m' ∧
      Good cut I ret m' l ∧ Turned ret hd m m' l := by
  obtain ⟨hword, hdepth⟩ := hi.word
  have hleave := leave_saved m.fpu block hi.load (by omega) hret left
  have hresumes :
      Resumes savedSize m ⟨s, m.ctx, if s.curThrd = NULL then m.fpu else block s.curThrd, block⟩ := by
    refine ⟨rfl, ?_, fun a hlo hhi hout => Option.ext fun c => ?_⟩
    · dsimp only
      rw [hi.cur]
      split
      · rfl
      · rename_i hne
        exact (hi.saved hne).1
    · have hafter := loadByte_place hi.inv hi.backed ⟨hlo, hhi⟩ (c := c)
      rw [hi.cur] at hafter
      have hseen := hi.seen a (by rwa [List.length_nil, Nat.zero_add]) c
      exact hafter.trans (hseen.trans (loadByte_place h.inv h.backed ⟨hlo, hhi⟩).symm)
  refine ⟨_, hleave, ⟨hi.inv, hi.backed, fun t ht hne => ?_⟩,
    fun t ht hne => ⟨(hi.others t ht hne).1, (hi.others t ht hne).2⟩, fun _ => hresumes,
    fun _ hne => absurd hi.cur hne, fun hne => absurd hi.cur hne⟩
  have hne' : t ≠ m.s.curThrd := hi.cur ▸ hne
  exact (h.waits t ht hne').untouched h.inv ht (hi.others t ht hne').1

/-- Another thread goes on, and the one that ran sleeps. -/
theorem Interrupted.switches (hi : Interrupted cut ret hd.flags hd.code m l s block)
    (h : Good cut I ret m l) (hret : ret < wordSize) (left : Context) {l' : List Ptr}
    (hsw : Switches cut s s' l l' (kernelRsp m.ctx - savedSize) t) :
    ∃ m', leave ret left m.fpu block s' (s'.thr t).rsp = .ok m' ∧
      Good cut I ret m' l' ∧ Turned ret hd m m' l := by
  have hcur : s'.curThrd = t := hsw.switched.cur
  have hne : t ≠ m.s.curThrd := hi.cur ▸ hsw.ne
  have hbacked : ∀ u ∈ l', WellPlaced s' u := fun u hu =>
    (hi.backed u ((hsw.same u).mp hu)).congr (hsw.switched.stackOf_eq u) (hsw.switched.codeOf_eq u)
      (hi.inv.each u ((hsw.same u).mp hu)).some fun _ _ => by rw [hsw.rgn]
  have hothers : ∀ u ∈ l, u ≠ m.s.curThrd → Untouched m.s s' u := fun u hu hu' =>
    (hi.others u hu hu').1.trans (hsw.untouched hi.inv hu (hi.cur ▸ hu'))
  have hwaits : Waits I ret s' t :=
    (h.waits t hsw.mem hne).untouched h.inv hsw.mem (hothers t hsw.mem hne)
  obtain ⟨c, fpu', hleave, hasleep⟩ := waits_leave m.fpu block hsw.inv hbacked
    (by rw [hcur]; exact (hsw.same t).mpr hsw.mem) (by rw [hcur]; exact hwaits) hret left
  rw [hcur] at hleave hasleep
  have hsleeps : m.s.curThrd ≠ NULL → Asleep ret hd m ⟨s', c, fpu', block⟩ m.s.curThrd := by
    intro hnull
    have hmem := h.inv.cur hnull
    obtain ⟨hown, hsaved⟩ := hi.saved hnull
    refine ⟨?_, fun i hlt => (hsw.seen hmem).mpr (hsaved i hlt), hown, fun a hlo hhi hout b => ?_⟩
    · show (s'.thr m.s.curThrd).rsp = _
      rw [hsw.switched.rsp, if_pos ⟨hi.cur.symm, by rw [hi.cur]; exact hnull⟩]
    · exact (hsw.seen hmem).trans ((hi.seen a hout b).trans (loadByte_place h.inv h.backed ⟨hlo, hhi⟩).symm)
  refine ⟨⟨s', c, fpu', block⟩, hleave, ⟨hsw.inv, hbacked, fun u hu _ => ?_⟩,
    fun u hu hu' => ⟨hothers u hu hu', (hi.others u hu hu').2⟩,
    fun hsame => absurd (hcur.symm.trans hsame) hne, fun hnull _ => hsleeps hnull,
    fun _ m₀ hd₀ hold => ?_⟩
  · by_cases hucur : u = m.s.curThrd
    · have hsleep := hsleeps (hucur ▸ hsw.inv.nonnull hu)
      refine .inr ⟨hd.flags, m.ctx, ?_⟩
      have hrsp : (s'.thr m.s.curThrd).rsp = kernelRsp m.ctx - savedSize := hsleep.rsp
      rw [hucur, hrsp]
      exact hsleep.saved
    · have hul := (hsw.same u).mp hu
      exact (h.waits u hul hucur).untouched h.inv hul (hothers u hul hucur)
  · have hold : Asleep ret hd₀ m₀ m t := hcur ▸ hold
    have hnow : Asleep ret hd₀ m₀ ⟨s', c, fpu', block⟩ t := hold.leaves h.inv hsw.mem
      ⟨hothers t hsw.mem hne, (hi.others t hsw.mem hne).2⟩
    have hrsp : (s'.thr t).rsp = kernelRsp m₀.ctx - savedSize := hnow.rsp
    have hback := hasleep hd₀.flags m₀.ctx (by rw [hrsp]; exact hnow.saved)
    refine ⟨hback.1, hback.2.trans hnow.block, fun a hlo hhi hout => Option.ext fun b => ?_⟩
    have hafter := loadByte_place hsw.inv hbacked ⟨hlo, hhi⟩ (c := b)
    rw [hcur] at hafter
    exact hafter.trans (hnow.memory a hlo hhi hout b)

end Interrupted

/-- The timer occurs, and the next ready thread goes on where it was. -/
theorem timer_good (h : Good cut I ret m l) (hp : Permitted cut E I m (.timer hd)) (hret : ret < wordSize) :
    ∃ m' l', Occurs E I ret m (.timer hd) m' ∧ Good cut I ret m' l' ∧ (∀ t, t ∈ l' ↔ t ∈ l) ∧
      Turned ret hd m m' l := by
  obtain ⟨hroom, hkernel⟩ := hp
  obtain ⟨space, hpush, hi, -⟩ := interrupted h (savedItems ret hd.flags m.ctx)
    (show _ = [] ++ savedImage ret hd.flags m.ctx from rfl) (hroom.less (by simp))
  rw [List.length_nil, Nat.zero_add] at hpush
  have hevent : ∀ n, m.event E I n ret (.timer hd) =
      yieldRsp n (kernelRsp m.ctx - savedSize) hd { m.s with space := space } >>= fun x =>
        leave ret hd.left m.fpu m.saveBlock x.1 x.2 := by
    intro n
    rw [Machine.event, timerIrq_eq, hpush, ok_bind]
    rfl
  rcases yieldRsp_cases hi.inv (kernelRsp m.ctx - savedSize) hd with ⟨n, hn⟩ | ⟨n, t, ht, hne, hn⟩
  · obtain ⟨m', hleave, hgood, hturned⟩ := hi.stays h hret hd.left
    refine ⟨m', l, ⟨n, ?_⟩, hgood, fun _ => Iff.rfl, hturned⟩
    rw [hevent, hn, ok_bind]
    exact hleave
  · -- the frames of `swapflop` lie below what is pushed
    obtain ⟨space', hpush', hi', hkernel'⟩ := interrupted h
      (savedItems ret hd.flags m.ctx ++ [hd.code])
      (show _ = hd.code ++ savedImage ret hd.flags m.ctx by simp [savedImage]) hroom
    rw [pushAll_append, hpush, ok_bind] at hpush'
    obtain ⟨s', l', hyield, hsw⟩ := yieldTo_spec (s := { m.s with space := space }) hpush' hi'.inv ht
      hne (hkernel' _ _ hkernel)
    obtain ⟨m', hleave, hgood, hturned⟩ := hi'.switches h hret hd.left hsw
    refine ⟨m', l', ⟨n, ?_⟩, hgood, hsw.same, hturned⟩
    rw [hevent, hn, hyield, ok_bind]
    exact hleave

-- ---------------------------------------------------------------------------
-- Runs
-- ---------------------------------------------------------------------------

/-- An event has one outcome. -/
theorem occurs_unique {e : Event Fx} {m₁ m₂ : Machine Fx} (h₁ : Occurs E I ret m e m₁)
    (h₂ : Occurs E I ret m e m₂) : m₁ = m₂ := by
  obtain ⟨n, hn⟩ := h₁
  obtain ⟨k, hk⟩ := h₂
  cases e with
  | call op ctx fpu =>
    rw [Machine.event] at hn hk
    obtain ⟨s₁, hs₁, hm₁⟩ := bind_eq_ok.mp hn
    obtain ⟨s₂, hs₂, hm₂⟩ := bind_eq_ok.mp hk
    obtain rfl := call_unique hs₁ hs₂
    exact Except.ok.inj (hm₁.symm.trans hm₂)
  | run stores ctx fpu => exact Except.ok.inj (hn.symm.trans hk)
  | timer h =>
    rw [Machine.event, timerIrq_eq] at hn hk
    obtain ⟨x, hx, hn⟩ := bind_eq_ok.mp hn
    rw [hx, ok_bind] at hk
    obtain ⟨y, hy, hn⟩ := bind_eq_ok.mp hn
    obtain ⟨z, hz, hk⟩ := bind_eq_ok.mp hk
    obtain rfl := yieldRsp_unique hy hz
    exact Except.ok.inj (hn.symm.trans hk)

/-- A permitted event that happens. -/
def PermittedStep (cut : Nat) (E : Env) (I : Image) (ret : Nat) (m : Machine Fx) (e : Event Fx)
    (m' : Machine Fx) : Prop :=
  Permitted cut E I m e ∧ Occurs E I ret m e m'

/-- Permitted events happen, and leave the threads alone that do not run. -/
theorem event_good (hret : ret < wordSize) (h : Good cut I ret m l) {e : Event Fx}
    (hp : Permitted cut E I m e) :
    ∃ m' l', Occurs E I ret m e m' ∧ Good cut I ret m' l' ∧ Spared m m' l l' := by
  cases e with
  | call op ctx fpu => exact call_good h hp
  | run stores ctx fpu => exact run_good h hp
  | timer hd =>
    obtain ⟨m', l', hoccurs, hgood, hsame, hturned⟩ := timer_good h hp hret
    exact ⟨m', l', hoccurs, hgood, fun t ht => ⟨(hsame t).mpr ht, hturned.others t ht⟩⟩

/-- A permitted step keeps the invariant. -/
theorem permittedStep_good (hret : ret < wordSize) (h : Good cut I ret m l) {e : Event Fx}
    (hstep : PermittedStep cut E I ret m e m') : ∃ l', Good cut I ret m' l' ∧ Spared m m' l l' := by
  obtain ⟨m₁, l', hoccurs, hgood, hspared⟩ := event_good hret h hstep.1
  rw [occurs_unique hstep.2 hoccurs]
  exact ⟨l', hgood, hspared⟩

/-- A run of permitted steps keeps the invariant. -/
theorem trace_good (hret : ret < wordSize) {es : List (Event Fx)} (h : Good cut I ret m l)
    (htrace : Trace (PermittedStep cut E I ret) m es m') : ∃ l', Good cut I ret m' l' := by
  induction htrace generalizing l with
  | nil m => exact ⟨l, h⟩
  | cons hstep _ ih =>
    obtain ⟨l₁, hgood, _⟩ := permittedStep_good hret h hstep
    exact ih hgood

/-- Another thread than `t` runs after the event. -/
def Elsewhere (t : Ptr) (step : Machine Fx → Event Fx → Machine Fx → Prop) (m : Machine Fx)
    (e : Event Fx) (m' : Machine Fx) : Prop :=
  step m e m' ∧ m'.s.curThrd ≠ t

/-- A thread sleeps on until it is switched to. -/
theorem trace_asleep (hret : ret < wordSize) {es : List (Event Fx)} (h : Good cut I ret m l) (ht : t ∈ l)
    (hcur : m.s.curThrd ≠ t) (hs : Asleep ret hd m₀ m t)
    (htrace : Trace (Elsewhere t (PermittedStep cut E I ret)) m es m') :
    ∃ l', Good cut I ret m' l' ∧ t ∈ l' ∧ m'.s.curThrd ≠ t ∧ Asleep ret hd m₀ m' t := by
  induction htrace generalizing l with
  | nil m => exact ⟨l, h, ht, hcur, hs⟩
  | cons hstep _ ih =>
    obtain ⟨l₁, hgood, hspared⟩ := permittedStep_good hret h hstep.1
    obtain ⟨ht₁, hleaves⟩ := hspared t ht
    exact ih hgood ht₁ hstep.2 (hs.leaves h.inv ht (hleaves hcur.symm))

/-- It holds at the start. -/
theorem Boot.good (hboot : Boot m.s) (hcut : IsCut cut) : Good cut I ret m [] :=
  ⟨hboot.inv hcut, fun _ ht => by simp at ht, fun _ ht => by simp at ht⟩

/-- In every run permitted events happen, and an interrupt is not felt: the thread that it
interrupts goes on as it was, at once if nothing else is ready, and else when it is
switched to next, whatever happens until then. -/
theorem resumed (hcut : IsCut cut) (hret : ret < wordSize) (hboot : Boot m₀.s)
    {before : List (Event Fx)} (hbefore : Trace (PermittedStep cut E I ret) m₀ before m) :
    (∀ e, Permitted cut E I m e → ∃ m', Occurs E I ret m e m') ∧
    ∀ hd m₁, PermittedStep cut E I ret m (.timer hd) m₁ →
      (m₁.s.curThrd = m.s.curThrd → Resumes savedSize m m₁) ∧
      (m.s.curThrd ≠ NULL → m₁.s.curThrd ≠ m.s.curThrd → ∀ between m₂ hd' m₃,
        Trace (Elsewhere m.s.curThrd (PermittedStep cut E I ret)) m₁ between m₂ →
          PermittedStep cut E I ret m₂ (.timer hd') m₃ →
            m₃.s.curThrd = m.s.curThrd → Resumes hd.depth m m₃) := by
  obtain ⟨l, hgood⟩ := trace_good hret (hboot.good hcut) hbefore
  constructor
  · intro e hp
    obtain ⟨m', _, hoccurs, _⟩ := event_good hret hgood hp
    exact ⟨m', hoccurs⟩
  intro hd m₁ hstep
  obtain ⟨m', l', hoccurs, hgood', hsame, hturned⟩ := timer_good (E := E) hgood hstep.1 hret
  rw [← occurs_unique hstep.2 hoccurs] at hgood' hturned
  refine ⟨hturned.same, ?_⟩
  intro hnull haway between m₂ hd' m₃ hbetween hback hcur
  have hmem := (hsame _).mpr (hgood.inv.cur hnull)
  obtain ⟨l₂, hgood₂, hmem₂, hcur₂, hasleep⟩ :=
    trace_asleep hret hgood' hmem haway (hturned.sleeps hnull haway) hbetween
  obtain ⟨m₄, l₃, hoccurs₄, _, _, hturned₄⟩ := timer_good (E := E) hgood₂ hback.1 hret
  rw [← occurs_unique hback.2 hoccurs₄] at hturned₄
  refine hturned₄.wakes ?_ m hd ?_
  · rw [hcur]
    exact hcur₂.symm
  · rw [hcur]
    exact hasleep

end Machine

def bootContext : Context :=
  ⟨0, 0, 0, 0, 0, 0, 0, 0, 0, 0, 0, 0, 0, 0, 0, 0x10, 0x10, 0x10, 0x10, 0x10000, 0x08, 0x202, 0x80000, 0x10⟩

/-- The boot code with the page of its stack, and the page of that of the handler. -/
def bootMachine : Machine Nat where
  s := { bootState with space := { bootState.space with
    map := fun v => if v = 0x7F000 ∨ v = 0x6F000 then v + 3 else 0 } }
  ctx := bootContext
  fpu := 0
  block _ := 0

/-- Each call of `swapflop` leaves the address it returns to, and another eight bytes. -/
def bootHandler : Handler :=
  ⟨0x2, bootContext, List.replicate 8 0xCC ++ leBytes 8 0x10456, List.replicate 8 0xDD ++ leBytes 8 0x10489⟩

/-- There is a start. -/
theorem bootMachine_boot : Boot bootMachine.s := by
  refine ⟨rfl, rfl, rfl, ?_, rfl, rfl⟩
  intro v hlo _ _
  have hne : ¬ (v = 0x7F000 ∨ v = 0x6F000) := by
    unfold uspaceBot at hlo
    omega
  exact congrArg (· % 2) (if_neg hne)

/-- A sequence returns when both its parts do. -/
theorem toOption_bind {α β : Type} {x : Except Fault α} {f : α → Except Fault β} {r : β}
    (h : (x >>= f).toOption = some r) : ∃ a, x = .ok a ∧ (f a).toOption = some r := by
  cases x with
  | error e => cases h
  | ok a => exact ⟨a, rfl, h⟩

/-- A page that is mapped to itself and not handed out has room. -/
theorem kernelRoom_page {s : Space} {page n : Nat} (hmap : s.map page = page ||| 3) (hfree : page ∉ s.frames)
    (hpage : page % pageSize = 0) (hbelow : page + pageSize ≤ uspaceBot) (hn : n ≤ pageSize) :
    KernelRoom s (page + pageSize) n := by
  have hword : uspaceBot ≤ wordSize ∧ uspaceBot ≤ 2 ^ 52 := by decide
  refine ⟨⟨page, page, pageSize⟩, ⟨⟨hpage, hpage, Nat.mod_self _, ?_⟩, by dsimp only; omega, 3, by decide,
    by decide, fun v hv => ?_⟩, by dsimp only; omega, le_rfl, hbelow, fun k hk => ?_⟩
  · dsimp only
    omega
  · obtain rfl : v = page := by
      unfold Block.HasPage pageSize at *
      dsimp only at hv
      omega
    have hsmall : v < wordSize := by
      unfold pageSize at hbelow
      omega
    rw [hmap, blockEntry, Nat.sub_self, Nat.add_zero]
    dsimp only
    rw [Nat.mod_eq_of_lt hsmall]
  · have hsame : (page + k) / pageSize * pageSize = page := by
      unfold pageSize at *
      dsimp only at hk
      omega
    rw [hsame]
    exact hfree

/-- A call that returned had pages enough. -/
theorem kspawn_permitted {m m' : Machine Nat} {func : Nat} {ctx : Context} {fpu : Nat}
    (h : m.event smallEnv smallImage 10 0x10123 (.call (.kspawn func) ctx fpu) = .ok m') :
    PermittedStep middle smallEnv smallImage 0x10123 m (.call (.kspawn func) ctx fpu) m' := by
  refine ⟨⟨fun hnone => ?_, fun rsp hop => by cases hop⟩, 10, h⟩
  rw [Machine.event, call, hnone] at h
  cases h

/-- The page of the handler's stack is there. -/
def HasHandlerPage (s : Space) : Prop := s.map 0x6F000 = 0x6F003 ∧ 0x6F000 ∉ s.frames

instance (s : Space) : Decidable (HasHandlerPage s) := inferInstanceAs (Decidable (_ ∧ _))

/-- A kernel thread with all of its stack has room. -/
theorem timer_permitted {m m' : Machine Nat} {t : Ptr} (hcur : m.s.curThrd = t) (ht : t ≠ NULL)
    (hrsp : kernelRsp m.ctx = lowHalfTop - pageSize) (hpage : HasHandlerPage m.s.space)
    (h : m.event smallEnv smallImage 10 0x10123 (.timer bootHandler) = .ok m') :
    PermittedStep middle smallEnv smallImage 0x10123 m (.timer bootHandler) m' := by
  have hkernel := kernelRoom_page (n := bootHandler.stack.length) (hpage.1.trans (by decide)) hpage.2
    (by decide) (by decide) (by decide)
  refine ⟨⟨?_, hkernel⟩, 10, h⟩
  rw [Room, if_neg (hcur ▸ ht), hrsp]
  decide

/-- Two kernel threads take turns; the first one is resumed as it was. -/
theorem resumed_first :
    ∃ m m₁ m₃ : Machine Nat, m.s.curThrd = 2 ∧
      Occurs smallEnv smallImage 0x10123 m (.timer bootHandler) m₁ ∧ m₁.s.curThrd = 5 ∧
      Occurs smallEnv smallImage 0x10123 m₁ (.timer bootHandler) m₃ ∧ m₃.s.curThrd = 2 ∧
      Resumes bootHandler.depth m m₃ := by
  have hrun : (do
      let a ← bootMachine.event smallEnv smallImage 10 0x10123 (.call (.kspawn 0x1000) bootContext 0)
      let b ← a.event smallEnv smallImage 10 0x10123 (.call (.kspawn 0x2000) bootContext 0)
      let m ← b.event smallEnv smallImage 10 0x10123 (.timer bootHandler)
      let m₁ ← m.event smallEnv smallImage 10 0x10123 (.timer bootHandler)
      let m₃ ← m₁.event smallEnv smallImage 10 0x10123 (.timer bootHandler)
      let pages := HasHandlerPage b.s.space ∧ HasHandlerPage m.s.space ∧ HasHandlerPage m₁.s.space
      .ok ((b.s.curThrd, b.s.space.map 0x7F000, decide (0x7F000 ∉ b.s.space.frames), b.ctx),
        (m.s.curThrd, kernelRsp m.ctx), (m₁.s.curThrd, kernelRsp m₁.ctx), m₃.s.curThrd,
        decide pages)).toOption =
      some ((NULL, 0x7F003, true, bootContext), (2, lowHalfTop - pageSize),
        (5, lowHalfTop - pageSize), 2, true) := by
    decide +kernel
  obtain ⟨a, ha, hrun⟩ := toOption_bind hrun
  obtain ⟨b, hb, hrun⟩ := toOption_bind hrun
  obtain ⟨m, hm, hrun⟩ := toOption_bind hrun
  obtain ⟨m₁, hm₁, hrun⟩ := toOption_bind hrun
  obtain ⟨m₃, hm₃, hrun⟩ := toOption_bind hrun
  simp only [Except.toOption, Option.some.injEq, Prod.mk.injEq, decide_eq_true_eq] at hrun
  obtain ⟨⟨hbcur, hbmap, hbfree, hbctx⟩, ⟨hmcur, hmrsp⟩, ⟨hm₁cur, hm₁rsp⟩, hm₃cur, hbpage, hmpage,
    hm₁page⟩ := hrun
  have hroom : Room b bootHandler.depth := by
    rw [Room, if_pos hbcur, hbctx]
    exact kernelRoom_page (hbmap.trans (by decide)) hbfree (by decide) (by decide) (by decide)
  have hkernel : KernelRoom b.s.space handlerStack bootHandler.stack.length :=
    kernelRoom_page (hbpage.1.trans (by decide)) hbpage.2 (by decide) (by decide) (by decide)
  have hbefore : Trace (PermittedStep middle smallEnv smallImage 0x10123) bootMachine
      [.call (.kspawn 0x1000) bootContext 0, .call (.kspawn 0x2000) bootContext 0, .timer bootHandler] m :=
    .cons (kspawn_permitted ha) (.cons (kspawn_permitted hb) (.cons ⟨⟨hroom, hkernel⟩, 10, hm⟩ (.nil m)))
  have hturn := (resumed isCut_middle (by decide) bootMachine_boot hbefore).2 _ m₁
    (timer_permitted hmcur (by decide) hmrsp hmpage hm₁)
  refine ⟨m, m₁, m₃, hmcur, ⟨10, hm₁⟩, hm₁cur, ⟨10, hm₃⟩, hm₃cur, ?_⟩
  refine hturn.2 (by rw [hmcur]; decide) (by rw [hmcur, hm₁cur]; decide) [] m₁ bootHandler m₃
    (.nil m₁) (timer_permitted hm₁cur (by decide) hm₁rsp hm₁page hm₃) ?_
  rw [hmcur, hm₃cur]

end Frosk.Scheduler
