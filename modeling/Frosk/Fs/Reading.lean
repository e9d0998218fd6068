import Mathlib.Tactic
import Frosk.Fs.Directory

/-!
# The kernel's file system: reading files of the disk

`fs_size` and `fs_read` on a file whose data is a chain of block nodes. `fs_read` skips a
block by taking its size from `addr`, but stays at the block, and it reads as much as the
size of the block from wherever in it it begins.
-/

namespace Frosk.Fs

open Lib

-- ---------------------------------------------------------------------------
-- resolve_node and the entries
-- ---------------------------------------------------------------------------

/-- Other entries. -/
def State.withEnt (s : State) (ent : Ptr → Entry) : State := { s with ent := ent }

section WithEnt

variable (s : State) (ent : Ptr → Entry)

@[simp] theorem withEnt_mem : (s.withEnt ent).mem = s.mem := rfl

@[simp] theorem withEnt_frames : (s.withEnt ent).frames = s.frames := rfl

@[simp] theorem withEnt_pages : (s.withEnt ent).pages = s.pages := rfl

@[simp] theorem withEnt_nodeSize : (s.withEnt ent).nodeSize = s.nodeSize := rfl

end WithEnt

/-- The load of a block does not depend on the entries. -/
theorem loadBranch_withEnt (E : Env) (n : Nat) (s : State) (ent : Ptr → Entry) :
    loadBranch E n (s.withEnt ent) = (loadBranch E n s).map (·.withEnt ent) := by
  by_cases hloaded : branchOsUse s.mem n ≠ 0
  · have hloaded' : branchOsUse (s.withEnt ent).mem n ≠ 0 := hloaded
    rw [loadBranch, if_pos hloaded', loadBranch, if_pos hloaded, Option.map_some]
  · have hloaded' : ¬ branchOsUse (s.withEnt ent).mem n ≠ 0 := hloaded
    rw [loadBranch, if_neg hloaded', loadBranch, if_neg hloaded]
    simp only [withEnt_mem, withEnt_frames, withEnt_pages]
    cases E.phys.pick (headerPageSize s.mem rfsmbLoc) s.frames with
    | none => simp only [Option.bind_eq_bind, Option.bind_none, Option.map_none]
    | some phys =>
      cases E.virt.pick (headerPageSize s.mem rfsmbLoc) s.pages with
      | none =>
        simp only [Option.bind_eq_bind, Option.bind_some, Option.bind_none, Option.map_none]
      | some virt =>
        simp only [Option.bind_eq_bind, Option.bind_some]
        by_cases hpage : pageSize < headerPageSize s.mem rfsmbLoc
        · refine (if_pos hpage).trans ?_
          rw [if_pos hpage, Option.map_none]
        · refine (if_neg hpage).trans ?_
          rw [if_neg hpage, Option.map_some]
          rfl

/-- `resolve_node` neither reads nor changes entries. -/
theorem resolveNode_withEnt (E : Env) (p : Nat) (s : State) (ent : Ptr → Entry) :
    resolveNode E p (s.withEnt ent) = (resolveNode E p s).map fun r => (r.1.withEnt ent, r.2) := by
  have hloop : ∀ (k : Nat) (s : State) (p mb : Nat),
      (iterate (resolveBody E) k (s.withEnt ent, p, mb)).join =
        ((iterate (resolveBody E) k (s, p, mb)).join).map fun r => (r.1.withEnt ent, r.2) := by
    intro k
    induction k with
    | zero => exact fun _ _ _ => rfl
    | succ k ih =>
      intro s p mb
      simp only [iterate, resolveBody, loadBranch_withEnt, withEnt_mem, withEnt_nodeSize]
      split_ifs
      · rfl
      · cases loadBranch E ((mb + p % 0x100 * s.nodeSize) % wordSize) s with
        | none => rfl
        | some s' => exact ih s' _ _
  unfold resolveNode
  split
  · rfl
  · exact hloop 4 s p rfsmbLoc

/-- It changes none of them. -/
theorem resolveNode_ent {E : Env} {p n : Nat} {s s' : State} (h : resolveNode E p s = some (s', n)) :
    s'.ent = s.ent := by
  have hsame := resolveNode_withEnt E p s s.ent
  rw [show s.withEnt s.ent = s from rfl, h, Option.map_some] at hsame
  have hfst : s' = s'.withEnt s.ent := congrArg Prod.fst (Option.some.inj hsame)
  rw [hfst]
  rfl

/-- `resolve_node` changes memory and takes pages. -/
theorem resolveNode_keeps {E : Env} {p n : Nat} {s s' : State} (h : resolveNode E p s = some (s', n)) :
    s'.used = s.used ∧ s'.rootDev = s.rootDev := by
  rw [resolveNode] at h
  split at h
  · obtain ⟨rfl, -⟩ := Prod.mk.inj (Option.some.inj h)
    exact ⟨rfl, rfl⟩
  · have hload : ∀ {a : Nat} {s₁ s₂ : State}, loadBranch E a s₁ = some s₂ →
        s₂.used = s₁.used ∧ s₂.rootDev = s₁.rootDev := by
      intro a s₁ s₂ hrun
      rw [loadBranch] at hrun
      split at hrun
      · obtain rfl := Option.some.inj hrun
        exact ⟨rfl, rfl⟩
      · obtain ⟨phys, -, hrun⟩ := Option.bind_eq_some_iff.mp hrun
        obtain ⟨virt, -, hrun⟩ := Option.bind_eq_some_iff.mp hrun
        dsimp only at hrun
        split at hrun
        · cases hrun
        · obtain rfl := Option.some.inj hrun
          exact ⟨rfl, rfl⟩
    refine iterate_invariant (fun r => r.1.used = s.used ∧ r.1.rootDev = s.rootDev)
      (fun r => ∀ x, r = some x → x.1.used = s.used ∧ x.1.rootDev = s.rootDev) ?_ ?_
      ⟨rfl, rfl⟩ (Option.join_eq_some_iff.mp h) (s', n) rfl
    · rintro ⟨s₁, p₁, mb⟩ r hinv hbody
      simp only [resolveBody] at hbody
      split at hbody
      · cases hbody
      · split at hbody
        · cases hbody
        · rename_i s₂ hs₂
          obtain rfl := Sum.inl.inj hbody
          exact ⟨(hload hs₂).1.trans hinv.1, (hload hs₂).2.trans hinv.2⟩
    · rintro ⟨s₁, p₁, mb⟩ r hinv hbody x rfl
      simp only [resolveBody] at hbody
      split at hbody
      · obtain rfl := Option.some.inj (Sum.inr.inj hbody)
        exact hinv
      · split at hbody
        · cases hbody
        · cases hbody

/-- A pointer of one byte is an entry of the root metadata block. -/
theorem resolveNode_root (E : Env) (s : State) {p : Nat} (hp : p ≠ 0) (hlt : p < 0x100) :
    resolveNode E p s = some (s, (rfsmbLoc + p * s.nodeSize) % wordSize) := by
  have hbody : resolveBody E (s, p, rfsmbLoc) =
      .inr (some (s, (rfsmbLoc + p * s.nodeSize) % wordSize)) := by
    simp only [resolveBody, Nat.mod_eq_of_lt hlt]
    rw [if_pos (.inl (Nat.div_eq_of_lt hlt))]
  rw [resolveNode, if_neg hp, iterate_succ_inr hbody]
  rfl

-- ---------------------------------------------------------------------------
-- Chains of blocks
-- ---------------------------------------------------------------------------

/-- The block nodes from the pointer `p` on, all in metadata blocks that are loaded. -/
def Chain (E : Env) (s : State) : Nat → List Nat → Prop
  | p, [] => p = 0
  | p, n :: ns => resolveNode E p s = some (s, n) ∧ n ≠ NULL ∧ nodeType s.mem n = some .BLOCK ∧
      Chain E s (blockNext s.mem n) ns

/-- The size of a file with these blocks. -/
def total (s : State) (ns : List Nat) : Nat := (ns.map (blockSize s.mem)).sum

/-- Where the data of a block begins on the disk. -/
def blockStart (s : State) (n : Nat) : Nat := blockLba s.mem n * headerPageSize s.mem rfsmbLoc

def blockBytes (E : Env) (s : State) (n : Nat) : List UInt8 :=
  E.disk.slice (blockStart s n) (blockSize s.mem n)

/-- The data of a file with these blocks. -/
def content (E : Env) (s : State) (ns : List Nat) : List UInt8 := ns.flatMap (blockBytes E s)

/-- The size of entry `e` is stored. -/
def State.setSize (s : State) (e : Ptr) (size : Nat) : State :=
  s.modify e fun v => { v with size := size }

/-- An entry for a file of the disk, as `assure_dir` makes it. -/
structure OnDisk (s : State) (e : Ptr) : Prop where
  ne_null  : e ≠ NULL
  type     : (s.ent e).type = .FILE
  node     : (s.ent e).node ≠ NULL
  virt     : (s.ent e).flags.virt = false
  present  : (s.ent e).flags.present = false
  unhooked : (s.ent e).flags.hooked = false

/-- The pointer to the data of a file. -/
def State.dataPtr (s : State) (e : Ptr) : Nat := commonData s.mem (s.ent e).node

section Chains

variable {E : Env} {s s₁ : State} {e : Ptr} {p n addr size rem : Nat} {ns : List Nat}

/-- The content has the size of its blocks. -/
theorem content_length : (content E s ns).length = total s ns := by
  induction ns with
  | nil => rfl
  | cons n ns ih =>
    rw [content, List.flatMap_cons, List.length_append, blockBytes, Memory.slice_length, total,
      List.map_cons, List.sum_cons]
    exact congrArg _ ih

/-- The first node of a chain that is loaded is found, and nothing changes. -/
theorem chain_resolve (h : Chain E s p ns) : resolveNode E p s = some (s, ns.headD NULL) := by
  cases ns with
  | nil =>
    obtain rfl : p = 0 := h
    rfl
  | cons n ns => exact h.1

theorem setSize_same : s.setSize e (s.ent e).size = s := by
  simp [State.setSize, State.modify]

/-- Storing a size does not touch the chain. -/
theorem resolveNode_setSize {s' : State} (h : resolveNode E p s = some (s', n)) (size : Nat) :
    resolveNode E p (s.setSize e size) = some (s'.setSize e size, n) := by
  have hent : s'.setSize e size = s'.withEnt (s.setSize e size).ent := by
    simp only [State.setSize, State.modify, State.withEnt, resolveNode_ent h]
  have hwith := resolveNode_withEnt E p s (s.setSize e size).ent
  rw [h, Option.map_some] at hwith
  rw [hent]
  exact hwith

/-- The size of the entry is nothing to its chain. -/
theorem chain_setSize (h : Chain E s p ns) (size : Nat) : Chain E (s.setSize e size) p ns := by
  induction ns generalizing p with
  | nil => exact h
  | cons n ns ih =>
    obtain ⟨hres, hnull, htype, hrest⟩ := h
    exact ⟨resolveNode_setSize hres size, hnull, htype, ih hrest⟩

-- ---------------------------------------------------------------------------
-- fs_size
-- ---------------------------------------------------------------------------

/-- The loop of `fs_size` adds up the blocks. -/
theorem sizeLoop (h : Chain E s p ns) (acc : Nat) (hacc : acc < wordSize) :
    Exits (sizeBody E e) (s.setSize e acc, ns.headD NULL)
      (some (s.setSize e ((acc + total s ns) % wordSize))) := by
  induction ns generalizing p acc with
  | nil =>
    refine exits_of_inr ?_
    rw [total, List.map_nil, List.sum_nil, Nat.add_zero, Nat.mod_eq_of_lt hacc]
    rfl
  | cons n ns ih =>
    obtain ⟨-, hnull, htype, hrest⟩ := h
    have hadd : ((s.setSize e acc).modify e fun v =>
        { v with size := (v.size + blockSize s.mem n) % wordSize }) =
        s.setSize e ((acc + blockSize s.mem n) % wordSize) := by
      simp [State.setSize, State.modify]
    have hround : sizeBody E e (s.setSize e acc, n) =
        .inl (s.setSize e ((acc + blockSize s.mem n) % wordSize), ns.headD NULL) := by
      have htype' : nodeType (s.setSize e acc).mem n = some .BLOCK := htype
      have hmem : (s.setSize e acc).mem = s.mem := rfl
      have hres := resolveNode_setSize (e := e) (chain_resolve hrest)
        ((acc + blockSize s.mem n) % wordSize)
      rw [sizeBody, if_neg hnull, if_neg (not_not_intro htype')]
      simp only [hmem, hadd]
      rw [show (s.setSize e ((acc + blockSize s.mem n) % wordSize)).mem = s.mem from rfl, hres]
    have hlt : (acc + blockSize s.mem n) % wordSize < wordSize := Nat.mod_lt _ (by decide)
    have hsum : ((acc + blockSize s.mem n) % wordSize + total s ns) % wordSize =
        (acc + total s (n :: ns)) % wordSize := by
      rw [Nat.mod_add_mod, total, total, List.map_cons, List.sum_cons, Nat.add_assoc]
    rw [← hsum]
    exact exits_of_inl hround (ih hrest _ hlt)

/-- The size of a file is the sum of its blocks, once the first is found. -/
theorem fsSize_unknown (h : OnDisk s e) (hsize : (s.ent e).size = fsSizeUnknown)
    (hres : resolveNode E (s.dataPtr e) s = some (s₁, ns.headD NULL)) (hchain : Chain E s₁ p ns) :
    Settles (fun k => fsSize E k e s)
      (s₁.setSize e (total s₁ ns % wordSize), total s₁ ns % wordSize) := by
  have hloop := settles_of_exits (sizeLoop (e := e) hchain 0 (by decide))
  obtain ⟨n, hn⟩ := hloop
  refine ⟨n, ?_⟩
  intro k hk
  show fsSize E k e s = _
  rw [fsSize, if_neg (by simp [h.ne_null, h.type]), if_neg (not_not_intro hsize),
    if_neg (by simp [h.virt, h.node])]
  have hres' : resolveNode E (commonData s.mem (s.ent e).node) s = some (s₁, ns.headD NULL) := hres
  have hiter : (iterate (sizeBody E e) k (s₁.modify e fun v => { v with size := 0 },
      ns.headD NULL)).join = some (s₁.setSize e (total s₁ ns % wordSize)) := by
    have hk' := hn k hk
    rw [Nat.zero_add] at hk'
    exact congrArg Option.join hk'
  simp only [hres', Option.bind_eq_bind, Option.bind_some, hiter]
  exact congrArg (fun v => some (_, v)) (congrArg Entry.size modify_ent_self)

/-- A size that is known is returned. -/
theorem fsSize_known (h : OnDisk s e) (hsize : (s.ent e).size ≠ fsSizeUnknown) (k : Nat) :
    fsSize E k e s = some (s, (s.ent e).size) := by
  rw [fsSize, if_neg (by simp [h.ne_null, h.type]), if_pos hsize]

-- ---------------------------------------------------------------------------
-- fs_read
-- ---------------------------------------------------------------------------

/-- What a round of the loop of `fs_read` asks of the device: where from, and how much. -/
def deviceRead (r : ReadState) : Option (Nat × Nat) :=
  if r.rem = 0 ∨ r.node = NULL ∨ blockSize r.fs.mem r.node ≤ r.addr then none
  else some ((blockStart r.fs r.node + r.addr) % wordSize, min r.rem (blockSize r.fs.mem r.node))

/-- The round reads nothing outside of the block it is at. -/
def StaysInBlock (r : ReadState) : Prop :=
  ∀ a n, deviceRead r = some (a, n) →
    blockStart r.fs r.node ≤ a ∧ a + n ≤ blockStart r.fs r.node + blockSize r.fs.mem r.node

section Rounds

variable (hn : n ≠ NULL) (htype : nodeType s.mem n = some .BLOCK) (hrem : rem ≠ 0)
include hn htype hrem

/-- A block that ends before `addr`. -/
theorem readRound_skip (E : Env) (buf : List UInt8) (hle : blockSize s.mem n ≤ addr) :
    readBody E ⟨s, addr, rem, n, buf⟩ = .inl ⟨s, addr - blockSize s.mem n, rem, n, buf⟩ := by
  rw [readBody, if_neg (by simp [hrem, hn]), if_neg (not_not_intro htype)]
  exact if_pos hle

/-- One round of `fs_read` copies from one block what is asked for and there. -/
theorem readRound_read (buf : List UInt8) (hlt : addr < blockSize s.mem n)
    (hplaced : blockStart s n + addr < wordSize) {m : Nat}
    (hnext : resolveNode E (blockNext s.mem n) s = some (s, m)) :
    readBody E ⟨s, addr, rem, n, buf⟩ = .inl ⟨s, 0, rem - min rem (blockSize s.mem n), m,
      buf ++ E.disk.slice (blockStart s n + addr) (min rem (blockSize s.mem n))⟩ := by
  have hmin : (if rem < blockSize s.mem n then rem else blockSize s.mem n) =
      min rem (blockSize s.mem n) := by
    split <;> omega
  have hplace : (blockLba s.mem n * headerPageSize s.mem rfsmbLoc + addr) % wordSize =
      blockStart s n + addr := Nat.mod_eq_of_lt hplaced
  rw [readBody, if_neg (by simp [hrem, hn]), if_neg (not_not_intro htype)]
  simp only [if_neg (Nat.not_le.mpr hlt), hnext, hmin, hplace]

/-- The loop stays at a block until `addr` is inside of it. -/
theorem skips_iff (hpos : 0 < blockSize s.mem n) {buf : List UInt8} {r : Option ReadState}
    (addr : Nat) :
    Exits (readBody E) ⟨s, addr, rem, n, buf⟩ r ↔
      Exits (readBody E) ⟨s, addr % blockSize s.mem n, rem, n, buf⟩ r := by
  induction addr using Nat.strong_induction_on with
  | _ addr ih =>
    rcases Nat.lt_or_ge addr (blockSize s.mem n) with hlt | hge
    · rw [Nat.mod_eq_of_lt hlt]
    · rw [exits_inl_iff (readRound_skip hn htype hrem E buf hge), ih _ (by omega), Nat.mod_eq_sub_mod hge]

/-- An empty block is never left. -/
theorem never_leaves (hzero : blockSize s.mem n = 0) {buf : List UInt8} {r : Option ReadState} :
    ¬ Exits (readBody E) ⟨s, addr, rem, n, buf⟩ r := by
  have hle : blockSize s.mem n ≤ addr := hzero ▸ Nat.zero_le addr
  have hround := readRound_skip hn htype hrem E buf hle
  rw [hzero, Nat.sub_zero] at hround
  rintro ⟨k, hk⟩
  induction k with
  | zero => cases hk
  | succ k ih => exact ih (by rwa [iterate_succ_inl hround] at hk)

end Rounds

/-- What is in the buffer stays there. -/
theorem readBody_extends {r r' : ReadState} (h : readBody E r = .inl r') : r.buf <+: r'.buf := by
  unfold readBody at h
  split at h
  · cases h
  · split at h
    · cases h
    · dsimp only at h
      split at h
      · obtain rfl := Sum.inl.inj h
        exact List.prefix_rfl
      · split at h
        · cases h
        · obtain rfl := Sum.inl.inj h
          exact List.prefix_append _ _

/-- What was copied stays at the beginning. -/
theorem exits_prefix {r r' : ReadState} (h : Exits (readBody E) r (some r')) : r.buf <+: r'.buf := by
  obtain ⟨k, hk⟩ := h
  induction k generalizing r with
  | zero => cases hk
  | succ k ih =>
    cases hb : readBody E r with
    | inl r₁ =>
      rw [iterate_succ_inl hb] at hk
      exact (readBody_extends hb).trans (ih hk)
    | inr r₁ =>
      rw [iterate_succ_inr hb] at hk
      unfold readBody at hb
      split at hb
      · have heq : some r = some r' := (Sum.inr.inj hb).trans (Option.some.inj hk)
        rw [Option.some.inj heq]
      · split at hb
        · have heq : none = some r' := (Sum.inr.inj hb).trans (Option.some.inj hk)
          cases heq
        · dsimp only at hb
          split at hb
          · cases hb
          · split at hb
            · have heq : none = some r' := (Sum.inr.inj hb).trans (Option.some.inj hk)
              cases heq
            · cases hb

/-- When nothing is left to read, the loop ends. -/
theorem readBody_done {r : ReadState} (h : r.rem = 0) : readBody E r = .inr (some r) := by
  rw [readBody, if_pos (.inl h)]

/-- A read that fits in the rest of the block. -/
theorem staysInBlock_of_le (hn : n ≠ NULL) (hrem : rem ≠ 0) (hlt : addr < blockSize s.mem n)
    (hplaced : blockStart s n + addr < wordSize)
    (hle : addr + min rem (blockSize s.mem n) ≤ blockSize s.mem n) {buf : List UInt8} :
    StaysInBlock ⟨s, addr, rem, n, buf⟩ := by
  intro a m hread
  rw [deviceRead, if_neg (by simp only [not_or, not_le]; exact ⟨hrem, hn, hlt⟩)] at hread
  obtain ⟨ha, hm⟩ := Prod.mk.inj (Option.some.inj hread)
  have ha' : blockStart s n + addr = a := (Nat.mod_eq_of_lt hplaced).symm.trans ha
  have hm' : min rem (blockSize s.mem n) = m := hm
  show blockStart s n ≤ a ∧ a + m ≤ blockStart s n + blockSize s.mem n
  omega

/-- From the start of a block the loop reads block by block. -/
theorem readLoop (h : Chain E s p ns) (hpos : ∀ n ∈ ns, 0 < blockSize s.mem n)
    (hplaced : ∀ n ∈ ns, blockStart s n + blockSize s.mem n ≤ wordSize) (rem : Nat)
    (hle : rem ≤ total s ns) (buf : List UInt8) :
    ∃ r, Exits (readBody E) ⟨s, 0, rem, ns.headD NULL, buf⟩ (some r) ∧ r.fs = s ∧ r.rem = 0 ∧
      r.buf = buf ++ (content E s ns).take rem ∧
      ∀ t, Rounds (readBody E) ⟨s, 0, rem, ns.headD NULL, buf⟩ t → StaysInBlock t := by
  induction ns generalizing p rem buf with
  | nil =>
    obtain rfl : rem = 0 := Nat.le_zero.mp hle
    have hdone : readBody E ⟨s, 0, 0, NULL, buf⟩ = .inr (some ⟨s, 0, 0, NULL, buf⟩) := readBody_done rfl
    refine ⟨_, exits_of_inr hdone, rfl, rfl, by simp, ?_⟩
    intro t ht
    rw [rounds_inr hdone ht]
    exact nofun
  | cons n ns ih =>
    rw [total, List.map_cons, List.sum_cons] at hle
    by_cases hrem : rem = 0
    · have hdone : readBody E ⟨s, 0, rem, n, buf⟩ = .inr (some ⟨s, 0, rem, n, buf⟩) := readBody_done hrem
      refine ⟨_, exits_of_inr hdone, rfl, hrem, by simp [hrem], ?_⟩
      intro t ht
      rw [rounds_inr hdone ht]
      intro a m hread
      rw [deviceRead, if_pos (.inl hrem)] at hread
      cases hread
    · obtain ⟨-, hnull, htype, hrest⟩ := h
      have hb := hpos n List.mem_cons_self
      have hfit := hplaced n List.mem_cons_self
      have hround := readRound_read hnull htype hrem buf hb (by omega)
        (chain_resolve hrest)
      obtain ⟨r, hexits, hfs, hzero, hbuf, hstays⟩ := ih hrest
        (fun m hm => hpos m (List.mem_cons_of_mem _ hm))
        (fun m hm => hplaced m (List.mem_cons_of_mem _ hm))
        (rem - min rem (blockSize s.mem n)) (by rw [total]; omega)
        (buf ++ E.disk.slice (blockStart s n + 0) (min rem (blockSize s.mem n)))
      refine ⟨r, exits_of_inl hround hexits, hfs, hzero, ?_, ?_⟩
      · have hslice : E.disk.slice (blockStart s n + 0) (min rem (blockSize s.mem n)) =
            (blockBytes E s n).take rem := by
          rw [Nat.add_zero, blockBytes, Memory.slice, Memory.slice, ← List.map_take, List.take_range]
        have hlength : (blockBytes E s n).length = blockSize s.mem n := Memory.slice_length
        have hleft : rem - min rem (blockSize s.mem n) = rem - (blockBytes E s n).length := by omega
        have hcons : content E s (n :: ns) = blockBytes E s n ++ content E s ns := rfl
        rw [hbuf, hslice, List.append_assoc, hcons, List.take_append, hleft]
      · intro t ht
        rcases rounds_inl hround ht with rfl | ht
        · exact staysInBlock_of_le hnull hrem hb (by omega) (by omega)
        · exact hstays t ht

section Call

variable {s₂ : State} {T : Nat} (h : OnDisk s e) (hbelow : addr < (s.ent e).size)
  (hsize : Settles (fun k => fsSize E k e s) (s₂, T))
include h hbelow hsize

/-- There is nothing left to read. -/
theorem fsRead_nothing (hzero : min size (wsub T addr) = 0) :
    Settles (fun k => fsRead E k addr size e s) (s₂, 0, []) := by
  obtain ⟨m, hm⟩ := hsize
  refine ⟨m, ?_⟩
  intro k hk
  have hmin : (if wsub T addr < size then wsub T addr else size) = 0 := by
    split <;> omega
  show fsRead E k addr size e s = _
  rw [fsRead, if_neg (not_not_intro h.type), if_neg (Nat.not_le.mpr hbelow),
    show fsSize E k e s = some (s₂, T) from hm k hk]
  simp only [Option.bind_eq_bind, Option.bind_some, hmin, if_true]

/-- The call is its loop. -/
theorem fsRead_settles_iff (h₂ : OnDisk s₂ e) {s₃ : State}
    (hres : resolveNode E (s₂.dataPtr e) s₂ = some (s₃, n)) (hne : min size (wsub T addr) ≠ 0)
    {x : State × Nat × List UInt8} :
    Settles (fun k => fsRead E k addr size e s) x ↔ ∃ r,
      Exits (readBody E) ⟨s₃, addr, min size (wsub T addr), n, []⟩ (some r) ∧
        (r.fs, min size (wsub T addr) - r.rem, r.buf) = x := by
  obtain ⟨m, hm⟩ := hsize
  refine settles_iterate_iff (n := m) ?_
  intro k hk
  have hmin : (if wsub T addr < size then wsub T addr else size) = min size (wsub T addr) := by
    split <;> omega
  have hres' : resolveNode E (commonData s₂.mem (s₂.ent e).node) s₂ = some (s₃, n) := hres
  rw [fsRead, if_neg (not_not_intro h.type), if_neg (Nat.not_le.mpr hbelow),
    show fsSize E k e s = some (s₂, T) from hm k hk]
  simp only [Option.bind_eq_bind, Option.bind_some, hmin, if_neg hne, h₂.unhooked, h₂.present, h₂.virt,
    Bool.false_eq_true, if_false, or_self, if_neg h₂.node, hres']
  cases (iterate (readBody E) k ⟨s₃, addr, min size (wsub T addr), n, []⟩).join with
  | none => rfl
  | some r => rfl

end Call

end Chains

end Frosk.Fs
