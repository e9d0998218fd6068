import Frosk.Lib.Bytes
import Frosk.Stdin.Stream

/-!
# Standard input: the limit of a line

What `fgets(buf, n, stdin)` stores to `buf`, over every interleaving of sends with calls and
steps of `fgets`.

Main result: `limited_iff`. All stores are below `n`, and a line that is returned is
terminated below `n`, exactly if no byte of a line comes when there are `n - 1` characters
of it already, those that backspaces took away not counted. At such a byte `max` is 0:
the byte is stored at `n - 1` and the terminator behind it.
-/

namespace Frosk.Stdin

open Lib

-- ---------------------------------------------------------------------------
-- The stores
-- ---------------------------------------------------------------------------

/-- The stores of the loop over the buffer: each byte where `buf` points to, and the
terminator behind the byte that the loop ends at. -/
def stores : List Cell → Nat → List UInt8 → List (Nat × UInt8)
  | [], _, _ => []
  | c :: cs, max, line =>
    (line.length, c.val) ::
      if c.val = 10 ∨ max = 0 then [(line.length + 1, 0)]
      else stores cs (edit c.val max line).1 (edit c.val max line).2

def State.stores (y : State) : List (Nat × UInt8) :=
  if y.pc = .scan then Stdin.stores y.file.contents y.max y.line else []

/-- One store after the other. -/
def storeAll (buf : Memory) (l : List (Nat × UInt8)) : Memory :=
  l.foldl (fun buf s => Function.update buf s.1 s.2) buf

/-- A process with the `n` and the `buf` of its call of `fgets`. -/
structure Caller where
  y     : State
  limit : Nat
  buf   : Memory

def Caller.act (K : Kalloc) (junk : Nat → UInt8) (r : Queue.Tid) (u : Caller) : Act → Option Caller
  | .send t data => (u.y.send K t data).map fun y => { u with y := y }
  | .call n => (u.y.call n).map fun y => { u with y := y, limit := n }
  | .run => (u.y.run junk r).map fun y => { u with y := y, buf := storeAll u.buf u.y.stores }

def Caller.Step (K : Kalloc) (junk : Nat → UInt8) (r : Queue.Tid) (u : Caller) (a : Act) (u' : Caller)
    (_ : Unit) : Prop :=
  u.act K junk r a = some u'

/-- What `fgets` stores is in the buffer, and so is the terminator of what it returns. -/
structure Limited (u : Caller) (a : Act) (u' : Caller) (_ : Unit) : Prop where
  inside : a = .run → ∀ s ∈ u.y.stores, s.1 < u.limit
  ends   : u.y.pc ≠ .out → u'.y.pc = .out → ∃ k < u.limit, u'.buf k = 0

-- ---------------------------------------------------------------------------
-- The condition
-- ---------------------------------------------------------------------------

/-- The characters of a line, after the backspaces in it. -/
def typed (line : List UInt8) (cs : List Cell) : List UInt8 :=
  cs.foldl (fun line c => if c.val = 8 then line.dropLast else line ++ [c.val]) line

/-- Each byte up to the newline finds room for itself and for the terminator. -/
def Room (limit : Nat) (line : List UInt8) (cs : List Cell) : Prop :=
  ∀ ds c rest, cs = ds ++ c :: rest → (∀ d ∈ ds, d.val ≠ 10) → (typed line ds).length + 1 < limit

def HasRoom (u : Caller) : Act → Prop
  | .run => u.y.pc = .scan → Room u.limit u.y.line u.y.file.contents
  | _ => True

/-- The limit of a call is at least 1. -/
def Calls (_ : Caller) : Act → Prop
  | .call n => 1 ≤ n ∧ n < wordSize
  | _ => True

/-- There is room for a character and for those behind it. -/
theorem room_cons {limit : Nat} {line : List UInt8} {c : Cell} {cs : List Cell} :
    Room limit line (c :: cs) ↔ line.length + 1 < limit ∧
      (c.val ≠ 10 → Room limit (if c.val = 8 then line.dropLast else line ++ [c.val]) cs) := by
  constructor
  · intro h
    refine ⟨h [] c cs rfl nofun, ?_⟩
    intro hc ds d rest heq hds
    refine h (c :: ds) d rest (congrArg (c :: ·) heq) ?_
    intro e he
    rcases List.mem_cons.mp he with rfl | he
    · exact hc
    · exact hds e he
  · rintro ⟨hfirst, hrest⟩ ds d rest heq hds
    cases ds with
    | nil => exact hfirst
    | cons e ds =>
      obtain ⟨rfl, hcs⟩ := List.cons.inj heq
      exact hrest (hds c List.mem_cons_self) ds d rest hcs fun e he => hds e (List.mem_cons_of_mem _ he)

instance decidableRoom (limit : Nat) : (line : List UInt8) → (cs : List Cell) → Decidable (Room limit line cs)
  | _, [] => isTrue fun ds c rest heq => absurd heq (by simp)
  | line, c :: cs =>
    have := decidableRoom limit (if c.val = 8 then line.dropLast else line ++ [c.val]) cs
    decidable_of_iff _ room_cons.symm

instance (u : Caller) : (a : Act) → Decidable (HasRoom u a)
  | .run => inferInstanceAs (Decidable (_ → _))
  | .send .. | .call _ => isTrue trivial

instance (u : Caller) : (a : Act) → Decidable (Calls u a)
  | .call _ => inferInstanceAs (Decidable (_ ∧ _))
  | .send .. | .run => isTrue trivial

/-- A check of the stores of a step. -/
def Caller.keeps (u : Caller) : Act → Bool
  | .run => u.y.stores.all fun s => s.1 < u.limit
  | _ => true

-- ---------------------------------------------------------------------------
-- The loop over the buffer
-- ---------------------------------------------------------------------------

variable {cs : List Cell} {max limit : Nat} {line : List UInt8}

/-- `max` counts the room that is left. -/
theorem edit_room {b : UInt8} (h : max + line.length + 1 = limit) (hmax : max ≠ 0) :
    (edit b max line).1 + (edit b max line).2.length + 1 = limit ∧
      (edit b max line).2 = if b = 8 then line.dropLast else line ++ [b] := by
  unfold edit
  by_cases hb : b = 8
  · rw [if_pos hb, if_pos hb]
    by_cases hline : line = []
    · subst hline
      exact ⟨h, rfl⟩
    · have hpos := List.length_pos_iff.mpr hline
      rw [if_pos hline]
      refine ⟨?_, rfl⟩
      rw [List.length_dropLast]
      omega
  · rw [if_neg hb, if_neg hb]
    refine ⟨?_, rfl⟩
    rw [List.length_append, List.length_singleton]
    omega

/-- The stores are in the buffer exactly where each byte has room. -/
theorem stores_inside_iff (h : max + line.length + 1 = limit) :
    (∀ s ∈ stores cs max line, s.1 < limit) ↔ Room limit line cs := by
  induction cs generalizing max line with
  | nil => exact ⟨fun _ ds c rest heq => absurd heq (by simp), fun _ s hs => absurd hs List.not_mem_nil⟩
  | cons c cs ih =>
    rw [stores, room_cons, List.forall_mem_cons]
    by_cases hmax : max = 0
    · -- no room: the terminator is stored behind the buffer
      rw [if_pos (.inr hmax)]
      constructor
      · rintro ⟨-, hlast⟩
        have hterm : line.length + 1 < limit := hlast _ (List.mem_singleton_self _)
        omega
      · rintro ⟨hroom, -⟩
        omega
    · have hfirst : line.length + 1 < limit := by omega
      by_cases hc : c.val = 10
      · rw [if_pos (.inl hc)]
        constructor
        · intro _
          exact ⟨hfirst, fun hne => absurd hc hne⟩
        · intro _
          refine ⟨by omega, ?_⟩
          intro s hs
          rw [List.mem_singleton.mp hs]
          exact hfirst
      · rw [if_neg (not_or.mpr ⟨hc, hmax⟩)]
        obtain ⟨hroom, hline⟩ := edit_room (b := c.val) h hmax
        rw [ih hroom, hline]
        constructor
        · rintro ⟨-, hrest⟩
          exact ⟨hfirst, fun _ => hrest⟩
        · rintro ⟨-, hrest⟩
          exact ⟨by omega, hrest hc⟩

/-- A loop that goes on keeps count. -/
theorem scan_room {max' : Nat} {line' : List UInt8} (h : max + line.length + 1 = limit)
    (hscan : (scan cs max line).2 = .more max' line') : max' + line'.length + 1 = limit := by
  induction cs generalizing max line with
  | nil =>
    obtain ⟨rfl, rfl⟩ := Scan.more.inj hscan
    exact h
  | cons c cs ih =>
    rw [scan] at hscan
    by_cases hstop : c.val = 10 ∨ max = 0
    · rw [if_pos hstop] at hscan
      cases hscan
    · rw [if_neg hstop] at hscan
      exact ih (edit_room h (not_or.mp hstop).2).1 hscan

/-- The last store of a loop that ends is the terminator of the line. -/
theorem stores_done {line' : List UInt8} (hscan : (scan cs max line).2 = .done line') :
    ∃ l, stores cs max line = l ++ [(line'.length, 0)] := by
  induction cs generalizing max line with
  | nil => cases hscan
  | cons c cs ih =>
    rw [scan] at hscan
    rw [stores]
    by_cases hstop : c.val = 10 ∨ max = 0
    · rw [if_pos hstop] at hscan
      rw [if_pos hstop]
      obtain rfl := Scan.done.inj hscan
      refine ⟨[(line.length, c.val)], ?_⟩
      rw [List.length_append]
      rfl
    · rw [if_neg hstop] at hscan
      rw [if_neg hstop]
      obtain ⟨l, hl⟩ := ih hscan
      exact ⟨(line.length, c.val) :: l, congrArg _ hl⟩

/-- The last store to a place is what is read. -/
theorem storeAll_last (buf : Memory) (l : List (Nat × UInt8)) (k : Nat) (b : UInt8) :
    storeAll buf (l ++ [(k, b)]) k = b := by
  rw [storeAll, List.foldl_append]
  exact Function.update_self ..

-- ---------------------------------------------------------------------------
-- One step
-- ---------------------------------------------------------------------------

variable {K : Kalloc} {junk : Nat → UInt8} {r : Queue.Tid} {y y' : State} {u u' : Caller}

/-- Up to the loop over the buffer `fgets` stores nothing and does not return. -/
theorem run_before (hpc : y.pc ≠ .scan) (h : y.run junk r = some y') :
    y'.max = y.max ∧ y'.line = y.line ∧ y'.pc ≠ .out := by
  rw [State.run] at h
  cases hp : y.pc with
  | out =>
    rw [hp] at h
    cases h
  | recv =>
    rw [hp] at h
    obtain ⟨⟨out, q⟩, -, rfl⟩ := Option.map_eq_some_iff.mp h
    simp only [State.checked]
    split
    · exact ⟨rfl, rfl, fun hout => by cases hout⟩
    · exact ⟨rfl, rfl, fun hout => by cases hout⟩
  | retry a =>
    rw [hp] at h
    obtain ⟨⟨out, q⟩, -, rfl⟩ := Option.map_eq_some_iff.mp h
    exact ⟨rfl, rfl, fun hout => by cases hout⟩
  | consume sz =>
    rw [hp] at h
    obtain ⟨⟨next, q⟩, -, rfl⟩ := Option.map_eq_some_iff.mp h
    refine ⟨rfl, rfl, ?_⟩
    show (if next ≠ NULL then Pc.recv else Pc.stop) ≠ .out
    split
    · exact fun hout => by cases hout
    · exact fun hout => by cases hout
  | stop =>
    rw [hp] at h
    obtain rfl := Option.some.inj h
    exact ⟨rfl, rfl, fun hout => by cases hout⟩
  | scan => exact absurd hp hpc

/-- The loop over the buffer returns a line, or goes on with what `scan` leaves. -/
theorem run_scan (junk : Nat → UInt8) (hpc : y.pc = .scan) : ∃ y', y.run junk r = some y' ∧
    ((∃ line, (scan y.file.contents y.max y.line).2 = .done line ∧ y'.pc = .out) ∨
      (scan y.file.contents y.max y.line).2 = .more y'.max y'.line ∧ y'.pc = .recv) := by
  rw [State.run, hpc]
  by_cases hlen : y.file.length > 0
  · simp only [if_pos hlen]
    obtain ⟨taken, ending, hscan⟩ : ∃ taken ending, scan y.file.contents y.max y.line = (taken, ending) :=
      ⟨_, _, rfl⟩
    rw [hscan]
    cases ending with
    | done line => exact ⟨_, rfl, .inl ⟨line, rfl, rfl⟩⟩
    | more max line => exact ⟨_, rfl, .inr ⟨rfl, rfl⟩⟩
  · simp only [if_neg hlen]
    have hnil : y.file.contents = [] := contents_nil (Nat.eq_zero_of_not_pos hlen)
    exact ⟨_, rfl, .inr ⟨by rw [hnil]; rfl, rfl⟩⟩

/-- Within a call, `max` counts the room that is left for the line. -/
def Caller.Counted (u : Caller) : Prop := u.y.pc ≠ .out → u.y.max + u.y.line.length + 1 = u.limit

/-- A call starts with nothing counted. -/
theorem call_counted {n : Nat} (hn : 1 ≤ n ∧ n < wordSize) (h : u.act K junk r (.call n) = some u') :
    u'.Counted := by
  obtain ⟨y', hcall, rfl⟩ := Option.map_eq_some_iff.mp h
  rw [State.call] at hcall
  split at hcall
  · obtain rfl := Option.some.inj hcall
    intro _
    show wsub n 1 + 0 + 1 = n
    rw [wsub_eq hn.1 hn.2]
    omega
  · cases hcall

theorem send_counted {t : Queue.Tid} {data : List UInt8} (hu : u.Counted)
    (h : u.act K junk r (.send t data) = some u') : u'.Counted ∧ u'.y.pc = u.y.pc := by
  obtain ⟨y', hsend, rfl⟩ := Option.map_eq_some_iff.mp h
  obtain ⟨q, -, rfl⟩ := Option.map_eq_some_iff.mp hsend
  exact ⟨hu, rfl⟩

/-- A step of `fgets` counts what it stores. -/
theorem run_counted (hu : u.Counted) (h : u.act K junk r .run = some u') : u'.Counted := by
  obtain ⟨y', hrun, rfl⟩ := Option.map_eq_some_iff.mp h
  intro hpc'
  by_cases hpc : u.y.pc = .scan
  · obtain ⟨y₁, hrun₁, hends⟩ := run_scan junk (r := r) hpc
    obtain rfl := Option.some.inj (hrun.symm.trans hrun₁)
    rcases hends with ⟨line, -, hout⟩ | ⟨hmore, -⟩
    · exact absurd hout hpc'
    · exact scan_room (hu (by rw [hpc]; exact nofun)) hmore
  · have hout : u.y.pc ≠ .out := by
      intro hout
      rw [State.run, hout] at hrun
      cases hrun
    obtain ⟨hmax, hline, -⟩ := run_before hpc hrun
    show y'.max + y'.line.length + 1 = u.limit
    rw [hmax, hline]
    exact hu hout

/-- A step of `fgets` stores in the buffer exactly if it has room. -/
theorem run_limited_iff (hu : u.Counted) (h : u.act K junk r .run = some u') :
    Limited u .run u' () ↔ HasRoom u .run := by
  obtain ⟨y', hrun, rfl⟩ := Option.map_eq_some_iff.mp h
  by_cases hpc : u.y.pc = .scan
  · have hcount := hu (by rw [hpc]; exact nofun)
    have hstores : u.y.stores = stores u.y.file.contents u.y.max u.y.line := if_pos hpc
    have hinside : (∀ s ∈ u.y.stores, s.1 < u.limit) ↔ HasRoom u .run := by
      rw [hstores, stores_inside_iff hcount]
      exact ⟨fun hroom _ => hroom, fun hroom => hroom hpc⟩
    refine ⟨fun hlim => hinside.mp (hlim.inside rfl), fun hroom => ⟨fun _ => hinside.mpr hroom, ?_⟩⟩
    intro _ hout
    obtain ⟨y₁, hrun₁, hends⟩ := run_scan junk (r := r) hpc
    obtain rfl := Option.some.inj (hrun.symm.trans hrun₁)
    rcases hends with ⟨line, hdone, -⟩ | ⟨-, hrecv⟩
    · obtain ⟨l, hl⟩ := stores_done hdone
      have hlast := hinside.mpr hroom
      rw [hstores, hl] at hlast
      refine ⟨line.length, hlast _ (List.mem_append_right _ (List.mem_singleton_self _)), ?_⟩
      show storeAll u.buf u.y.stores line.length = 0
      rw [hstores, hl]
      exact storeAll_last ..
    · exact absurd (hout.symm.trans hrecv) nofun
  · have hnone : u.y.stores = [] := if_neg hpc
    refine ⟨fun _ hscan => absurd hscan hpc, fun _ => ⟨fun _ s hs => ?_, fun _ hout => ?_⟩⟩
    · rw [hnone] at hs
      cases hs
    · exact absurd hout (run_before hpc hrun).2.2

-- ---------------------------------------------------------------------------
-- Whole runs
-- ---------------------------------------------------------------------------

def Caller.start (junk : Nat → UInt8) (mem : Queue.Kmem) (buf : Memory) : Caller := ⟨.start junk mem, 0, buf⟩

/-- **The limit of a line**, over every interleaving of sends with calls and steps of `fgets`. -/
theorem limited_iff (K : Kalloc) (junk : Nat → UInt8) (r : Queue.Tid) (mem : Queue.Kmem) (buf : Memory)
    (acts : List Act) (hcalls : Whenever (Caller.Step K junk r) Calls (Caller.start junk mem buf) acts) :
    Upon (Caller.Step K junk r) Limited (Caller.start junk mem buf) acts ↔
      Whenever (Caller.Step K junk r) HasRoom (Caller.start junk mem buf) acts := by
  have hgood : ∀ (u : Caller) a u' b, u.Counted → Calls u a → HasRoom u a → u.Step K junk r a u' b →
      Limited u a u' b ∧ u'.Counted := by
    intro u a u' b hu hcall hroom hstep
    cases a with
    | send t data =>
      obtain ⟨hu', hpc⟩ := send_counted hu hstep
      exact ⟨⟨nofun, fun hin hout => absurd (hpc.symm.trans hout) hin⟩, hu'⟩
    | call n =>
      refine ⟨⟨nofun, ?_⟩, call_counted hcall hstep⟩
      intro hin _
      obtain ⟨y', hcalled, -⟩ := Option.map_eq_some_iff.mp hstep
      rw [State.call] at hcalled
      split at hcalled
      · rename_i hpc
        exact absurd hpc hin
      · cases hcalled
    | run => exact ⟨(run_limited_iff hu hstep).mpr hroom, run_counted hu hstep⟩
  have hbad : ∀ (u : Caller) a, u.Counted → Calls u a → ¬ HasRoom u a →
      ∃ u' b, u.Step K junk r a u' b ∧ ¬ Limited u a u' b := by
    intro u a hu _ hroom
    cases a with
    | send t data => exact absurd trivial hroom
    | call n => exact absurd trivial hroom
    | run =>
      have hpc : u.y.pc = .scan := by
        by_contra hpc
        exact hroom fun hscan => absurd hscan hpc
      obtain ⟨y', hrun, -⟩ := run_scan junk (r := r) hpc
      have hact : u.act K junk r .run = some { u with y := y', buf := storeAll u.buf u.y.stores } := by
        rw [Caller.act, hrun]
        rfl
      exact ⟨_, (), hact, fun hlim => hroom ((run_limited_iff hu hact).mp hlim)⟩
  exact upon_iff_whenever hgood hbad (fun hout => absurd rfl hout) hcalls

/-- A step of the caller is computed by its action. -/
theorem caller_computes (K : Kalloc) (junk : Nat → UInt8) (r : Queue.Tid) :
    Computes (fun u a => (u.act K junk r a).map fun u' => (u', ())) (Caller.Step K junk r) :=
  computes_of_eq fun _ _ _ _ h => h

/-- `ab`, a backspace and a newline in a buffer of four bytes. -/
theorem backspace_limited :
    Upon (Caller.Step .above (fun _ => 0) 1) Limited (.start (fun _ => 0) .empty fun _ => 0)
      ([.send 2 [97, 98, 8, 10], .call 4] ++ List.replicate 9 .run) := by
  have hcomputes := caller_computes .above (fun _ => 0) 1
  exact (limited_iff .above (fun _ => 0) 1 .empty (fun _ => 0) _
    (whenever_of_checkRun hcomputes (by decide +kernel))).mpr
    (whenever_of_checkRun hcomputes (by decide +kernel))

/-- `ab` and a newline in a buffer of three bytes: the terminator is stored behind it. -/
theorem terminator_outside :
    ¬ ∀ acts : List Act,
      Whenever (Caller.Step .above (fun _ => 0) 1) Calls (.start (fun _ => 0) .empty fun _ => 0) acts →
      Upon (Caller.Step .above (fun _ => 0) 1) Limited (.start (fun _ => 0) .empty fun _ => 0) acts := by
  intro hall
  have hkeeps : ∀ (u : Caller) a u' b, Limited u a u' b → u.keeps a = true := by
    intro u a u' b hlim
    cases a with
    | run => exact List.all_eq_true.mpr fun s hs => decide_eq_true (hlim.inside rfl s hs)
    | _ => rfl
  have hreal : ∀ (u : Caller) a u' (b : Unit),
      ((u.act .above (fun _ => 0) 1 a).map fun u' => (u', ())) = some (u', b) →
        u.Step .above (fun _ => 0) 1 a u' b :=
    fun _ _ _ _ => step_of_eq fun _ _ _ _ h => h
  have hcheck := checkPost_of_upon hreal hkeeps
    (hall ([.send 2 [97, 98, 10], .call 3] ++ List.replicate 9 .run)
      (whenever_of_checkRun (caller_computes .above (fun _ => 0) 1) (by decide +kernel)))
  exact absurd hcheck (by decide +kernel)

end Frosk.Stdin
