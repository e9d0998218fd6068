import Mathlib.Tactic
import Frosk.Dev.Definitions

/-!
# Reading bytes of a block device

`Served` is what holds between the three sections of `dev_read`: the bytes counted as read are
in the buffer, the running variables stand behind them, and nothing but the buffer and the
block for parts was written. A section either carries this on, or jumps to `ret` after a call
that failed (`Section`).

* `dev_read_bytes` — `dev_read` on every device whose callback transfers whole blocks.
-/

namespace Frosk.Dev

open Lib

variable {σ : Type*}

/-- **Whole blocks.** A callback on blocks of `bs` bytes with the bytes `content`: it never
returns more than it was asked for and writes nothing but the blocks asked for, and if it
returns their number they hold what is on the device. -/
structure Faithful (read : ReadFn σ) (bs : Nat) (content : Memory) : Prop where
  le    : ∀ s mem p block count, (read s mem p block count).1 ≤ count
  stays : ∀ s mem p block count x, x < p ∨ p + count * bs ≤ x →
            (read s mem p block count).2.2 x = mem x
  whole : ∀ s mem p block count, (read s mem p block count).1 = count → ∀ i < count * bs,
            (read s mem p block count).2.2 (p + i) = content (block * bs + i)

/-- What the caller of `dev_read` asks for, and the block `dev_read` would use for parts. -/
structure Request where
  content : Memory
  mem     : Memory
  buf     : Nat
  addr    : Nat
  size    : Nat
  temp    : Nat
  bs      : Nat

/-- The buffer and the block for parts are different storage, and the bytes asked for end
where addresses end. -/
structure Request.Proper (q : Request) : Prop where
  pos   : 0 < q.bs
  fits  : q.addr + q.size ≤ wordSize
  apart : q.temp + q.bs ≤ q.buf ∨ q.buf + q.size ≤ q.temp

/-- With `left` bytes still to read, those before them are in the buffer, and nothing but
the buffer and the block for parts was written. -/
structure Delivered (q : Request) (mem : Memory) (left : Nat) : Prop where
  le    : left ≤ q.size
  bytes : ∀ i < q.size - left, mem (q.buf + i) = q.content (q.addr + i)
  frame : ∀ x, (x < q.buf ∨ q.buf + q.size ≤ x) → (x < q.temp ∨ q.temp + q.bs ≤ x) →
            mem x = q.mem x

structure Served (q : Request) (r : Vars σ) : Prop where
  done : Delivered q r.mem r.size
  buf  : r.buf = q.buf + (q.size - r.size)
  addr : r.addr = (q.addr + (q.size - r.size)) % wordSize
  temp : r.m = NULL ∨ r.m = q.temp

/-- What a section of `dev_read` comes to: it goes on with `P` and no call failed, or it gave
up after a call that failed. -/
def Section (q : Request) (P : Vars σ → Prop) : Flow (Vars σ) → Prop
  | .next r => P r ∧ ∀ c ∈ r.calls, ¬ c.Failed
  | .ret r => Delivered q r.mem r.size ∧ ∃ c ∈ r.calls, c.Failed
  | .halt => False

section Sections

variable {q : Request} {r : Vars σ} {P Q : Vars σ → Prop}

/-- A section of the read, and then another one if no call has failed. -/
theorem Section.andThen {x : Flow (Vars σ)} {f : Vars σ → Flow (Vars σ)} (hx : Section q P x)
    (hf : ∀ r, P r → (∀ c ∈ r.calls, ¬ c.Failed) → Section q Q (f r)) :
    Section q Q (x.andThen f) := by
  cases x with
  | next r => exact hf r hx.1 hx.2
  | ret r => exact hx
  | halt => exact hx.elim

/-- An assertion that what comes before it makes true. -/
theorem Section.assertion {X : Vars σ → Prop} [DecidablePred X] {x : Flow (Vars σ)}
    (hx : Section q P x) (h : ∀ r, P r → X r) : Section q P (x.andThen (assertion X)) :=
  hx.andThen fun r hp hc => by
    rw [Dev.assertion, if_pos (h r hp)]
    exact ⟨hp, hc⟩

/-- While there is something left to read, the address has not wrapped. -/
theorem Served.addr_eq (hs : Served q r) (hq : q.Proper) (hsize : 0 < r.size) :
    r.addr = q.addr + (q.size - r.size) := by
  have hfit := hq.fits
  have hle := hs.done.le
  rw [hs.addr, Nat.mod_eq_of_lt (by omega)]

/-- Memory that changed only in the block for parts and behind what was read. -/
theorem Served.remains (hs : Served q r) (hq : q.Proper) {mem : Memory}
    (hmem : ∀ x, (x < r.buf ∨ r.buf + r.size ≤ x) → (x < q.temp ∨ q.temp + q.bs ≤ x) →
      mem x = r.mem x) : Delivered q mem r.size := by
  have hle := hs.done.le
  have hbuf := hs.buf
  have hapart := hq.apart
  refine ⟨hle, ?_, ?_⟩
  · intro i hi
    rw [← hs.done.bytes i hi]
    exact hmem _ (by omega) (by omega)
  · intro x hx ht
    rw [← hs.done.frame x hx ht]
    exact hmem x (by omega) ht

/-- The next `s` bytes are in the buffer. -/
theorem Served.advance (hs : Served q r) {mem : Memory} {s : Nat} (hle : s ≤ r.size)
    (hbytes : ∀ i < s, mem (r.buf + i) = q.content (q.addr + (q.size - r.size) + i))
    (hmem : ∀ x, (x < r.buf ∨ r.buf + s ≤ x) → mem x = r.mem x) :
    Delivered q mem (r.size - s) := by
  have hsize := hs.done.le
  have hbuf := hs.buf
  refine ⟨(Nat.sub_le ..).trans hsize, ?_, ?_⟩
  · intro i hi
    by_cases hold : i < q.size - r.size
    · rw [hmem _ (by omega), hs.done.bytes i hold]
    · have hnew := hbytes (i - (q.size - r.size)) (by omega)
      have hto : r.buf + (i - (q.size - r.size)) = q.buf + i := by omega
      have hfrom : q.addr + (q.size - r.size) + (i - (q.size - r.size)) = q.addr + i := by omega
      rwa [hto, hfrom] at hnew
  · intro x hx ht
    rw [← hs.done.frame x hx ht]
    exact hmem x (by omega)

/-- The variables behind the next `s` bytes. -/
theorem Served.move (hs : Served q r) {mem : Memory} {dev : σ} {calls : List Call} {s : Nat}
    (hle : s ≤ r.size) (hdone : Delivered q mem (r.size - s)) :
    Served q { r with
      mem, dev, calls, size := r.size - s, addr := (r.addr + s) % wordSize, buf := r.buf + s } where
  done := hdone
  buf := by
    have hsize := hs.done.le
    have hbuf := hs.buf
    show r.buf + s = q.buf + (q.size - (r.size - s))
    omega
  addr := by
    have hsize := hs.done.le
    have hsum : q.addr + (q.size - (r.size - s)) = q.addr + (q.size - r.size) + s := by omega
    show (r.addr + s) % wordSize = (q.addr + (q.size - (r.size - s))) % wordSize
    rw [hs.addr, hsum, Nat.mod_add_mod]
  temp := hs.temp

end Sections

-- ---------------------------------------------------------------------------
-- The three sections
-- ---------------------------------------------------------------------------

section Reading

variable {read : ReadFn σ} {kalloc : Nat → Nat} {q : Request} {r : Vars σ}

/-- The buffer for one block is allocated once. -/
theorem needBlock_m (hs : Served q r) (hk : kalloc q.bs = q.temp) :
    (needBlock kalloc q.bs r).m = q.temp := by
  rw [needBlock]
  split
  · exact hk
  · rename_i hm
    exact hs.temp.resolve_left hm

theorem needBlock_eq (hs : Served q r) (hk : kalloc q.bs = q.temp) :
    needBlock kalloc q.bs r = { r with m := q.temp } := by
  have hm := needBlock_m hs hk
  rw [needBlock] at hm ⊢
  split
  · rw [hk]
  · rename_i hnull
    rw [if_neg hnull] at hm
    rw [← hm]

/-- A call for one block into the block for parts: it fails, or what lies there from the
place of the address on is what comes next. -/
theorem callRead_part (hf : Faithful read q.bs q.content) (hq : q.Proper) (hs : Served q r)
    (hsize : 0 < r.size) (hcalls : ∀ c ∈ r.calls, ¬ c.Failed) {k : Nat} {r' : Vars σ}
    (hcall : callRead read q.bs { r with m := q.temp } q.temp 1 = (k, r')) :
    ∃ dev mem, r' = { r with dev, mem, m := q.temp, calls := ⟨r.addr / q.bs, 1, k⟩ :: r.calls } ∧
      Served q r' ∧ (k = 0 → ∃ c ∈ r'.calls, c.Failed) ∧
      (k ≠ 0 → (∀ c ∈ r'.calls, ¬ c.Failed) ∧ ∀ i, r.addr % q.bs + i < q.bs →
        mem (q.temp + (r.addr % q.bs + i)) = q.content (q.addr + (q.size - r.size) + i)) := by
  have hle := hf.le r.dev r.mem q.temp (r.addr / q.bs) 1
  have hstays := hf.stays r.dev r.mem q.temp (r.addr / q.bs) 1
  have hwhole := hf.whole r.dev r.mem q.temp (r.addr / q.bs) 1
  simp only [callRead, Prod.mk.injEq] at hcall
  obtain ⟨rfl, rfl⟩ := hcall
  rw [Nat.one_mul] at hstays hwhole
  have hdone := hs.remains hq fun x _ hx => hstays x hx
  refine ⟨_, _, rfl, ⟨hdone, hs.buf, hs.addr, .inr rfl⟩, ?_, ?_⟩
  · intro hk
    refine ⟨_, List.mem_cons_self, ?_⟩
    rw [Call.Failed, hk]
    exact Nat.zero_ne_one
  · intro hk
    have hone : (read r.dev r.mem q.temp (r.addr / q.bs) 1).1 = 1 := by omega
    constructor
    · intro c hc
      rcases List.mem_cons.mp hc with rfl | hc
      · exact not_not_intro hone
      · exact hcalls c hc
    · intro i hi
      have haddr := hs.addr_eq hq hsize
      have hdiv : r.addr / q.bs * q.bs + r.addr % q.bs = r.addr := Nat.div_add_mod' ..
      rw [hwhole hone _ hi, ← haddr, ← Nat.add_assoc, hdiv]

/-- Where a move by a whole number of blocks, or to the end, leaves the address. -/
theorem move_aligned (hq : q.Proper) (hs : Served q r) (hsize : 0 < r.size) {s n : Nat}
    (hle : s ≤ r.size) (hn : s < r.size → r.addr + s = n * q.bs) :
    (r.addr + s) % wordSize % q.bs = 0 ∨ r.size - s = 0 := by
  by_cases hlt : s < r.size
  · left
    have hfit := hq.fits
    have hsum := hs.done.le
    have haddr := hs.addr_eq hq hsize
    have hword : r.addr + s < wordSize := by omega
    rw [Nat.mod_eq_of_lt hword, hn hlt, Nat.mul_mod_left]
  · right
    omega

/-- The first section leaves the address on a block boundary, unless it was the last one. -/
theorem readHead_section (hf : Faithful read q.bs q.content) (hq : q.Proper)
    (hk : kalloc q.bs = q.temp) (hs : Served q r) (hcalls : ∀ c ∈ r.calls, ¬ c.Failed)
    (hsize : 0 < r.size) :
    Section q (fun r => Served q r ∧ (r.addr % q.bs = 0 ∨ r.size = 0))
      (readHead kalloc read q.bs r) := by
  rw [readHead]
  split
  · rename_i ht
    rw [needBlock_eq hs hk]
    simp only
    cases hcall : callRead read q.bs { r with m := q.temp } q.temp 1 with | mk k r' =>
    obtain ⟨dev, mem, rfl, hs', hfail, hgood⟩ := callRead_part hf hq hs hsize hcalls hcall
    simp only
    by_cases hk0 : k = 0
    · rw [if_pos hk0]
      exact ⟨hs'.done, hfail hk0⟩
    · rw [if_neg hk0]
      obtain ⟨hok, hpart⟩ := hgood hk0
      have hdiv : r.addr / q.bs * q.bs + r.addr % q.bs = r.addr := Nat.div_add_mod' ..
      have hmod : r.addr % q.bs < q.bs := Nat.mod_lt _ hq.pos
      -- what the head takes: up to the boundary, or all
      generalize hsec : (if q.bs - r.addr % q.bs < r.size then q.bs - r.addr % q.bs
        else r.size) = s
      have hle : s ≤ r.size ∧ s ≤ q.bs - r.addr % q.bs := by
        rw [← hsec]
        split <;> omega
      have hend : s < r.size → r.addr + s = (r.addr / q.bs + 1) * q.bs := by
        intro hlt
        rw [Nat.add_mul, Nat.one_mul]
        split at hsec <;> omega
      refine ⟨⟨hs'.move hle.1 (hs'.advance hle.1 (fun i hi => ?_) fun x hx => ?_), ?_⟩, hok⟩
      · rw [Memory.blit_slice_inside hi, Nat.add_assoc]
        exact hpart i (by omega)
      · exact Memory.blit_slice_outside hx
      · exact move_aligned hq hs hsize hle.1 hend
  · rename_i ht
    exact ⟨⟨hs, .inl (not_not.mp ht)⟩, hcalls⟩

/-- The aligned section leaves less than a block. -/
theorem readBody_section (hf : Faithful read q.bs q.content) (hq : q.Proper) (hs : Served q r)
    (hcalls : ∀ c ∈ r.calls, ¬ c.Failed) (hat : r.addr % q.bs = 0 ∨ r.size = 0) :
    Section q (fun r => Served q r ∧ (r.addr % q.bs = 0 ∨ r.size = 0) ∧ r.size < q.bs)
      (readBody read q.bs r) := by
  have hpos := hq.pos
  have hdiv : r.size / q.bs * q.bs + r.size % q.bs = r.size := Nat.div_add_mod' ..
  have hmod : r.size % q.bs < q.bs := Nat.mod_lt _ hpos
  rw [readBody]
  split
  · rename_i hblocks
    have hsize : 0 < r.size := by
      by_contra hzero
      rw [Nat.eq_zero_of_not_pos hzero, Nat.zero_div] at hblocks
      exact hblocks rfl
    have haddr := hs.addr_eq hq hsize
    have hfirst : r.addr / q.bs * q.bs = r.addr :=
      Nat.div_mul_cancel (Nat.dvd_of_mod_eq_zero (hat.resolve_right (by omega)))
    have hstays := hf.stays r.dev r.mem r.buf (r.addr / q.bs) (r.size / q.bs)
    have hwhole := hf.whole r.dev r.mem r.buf (r.addr / q.bs) (r.size / q.bs)
    cases hcall : callRead read q.bs r r.buf (r.size / q.bs) with | mk k r' =>
    simp only [callRead, Prod.mk.injEq] at hcall
    obtain ⟨rfl, rfl⟩ := hcall
    simp only
    split
    · rename_i hk
      exact ⟨hs.remains hq fun x hx _ => hstays x (by omega), _, List.mem_cons_self, hk⟩
    · rename_i hk
      have hk := not_not.mp hk
      have hle : r.size / q.bs * q.bs ≤ r.size := by omega
      have hdone := hs.advance hle (fun i hi => by rw [hwhole hk i hi, hfirst, haddr]) hstays
      have hnext : r.addr + r.size / q.bs * q.bs = (r.addr / q.bs + r.size / q.bs) * q.bs := by
        rw [Nat.add_mul, hfirst]
      refine ⟨⟨hs.move hle hdone, move_aligned hq hs hsize hle fun _ => hnext, ?_⟩, ?_⟩
      · show r.size - r.size / q.bs * q.bs < q.bs
        omega
      · intro c hc
        rcases List.mem_cons.mp hc with rfl | hc
        · exact not_not_intro hk
        · exact hcalls c hc
  · rename_i hblocks
    refine ⟨⟨hs, hat, ?_⟩, hcalls⟩
    rw [not_not.mp hblocks, Nat.zero_mul] at hdiv
    omega

/-- The last section reads what is left. -/
theorem readTail_section (hf : Faithful read q.bs q.content) (hq : q.Proper)
    (hk : kalloc q.bs = q.temp) (hs : Served q r) (hcalls : ∀ c ∈ r.calls, ¬ c.Failed)
    (hat : r.addr % q.bs = 0 ∨ r.size = 0) (hlt : r.size < q.bs) :
    Section q (fun r => Delivered q r.mem r.size ∧ r.size = 0) (readTail kalloc read q.bs r) := by
  rw [readTail]
  split
  · rename_i hsize
    rw [needBlock_eq hs hk]
    simp only
    cases hcall : callRead read q.bs { r with m := q.temp } q.temp 1 with | mk k r' =>
    obtain ⟨dev, mem, rfl, hs', hfail, hgood⟩ :=
      callRead_part hf hq hs (Nat.pos_of_ne_zero hsize) hcalls hcall
    simp only
    by_cases hk0 : k = 0
    · rw [if_pos hk0]
      exact ⟨hs'.done, hfail hk0⟩
    · rw [if_neg hk0]
      obtain ⟨hok, hpart⟩ := hgood hk0
      rw [hat.resolve_right hsize] at hpart
      refine ⟨⟨hs'.advance le_rfl (fun i hi => ?_) fun x hx => ?_, Nat.sub_self _⟩, hok⟩
      · have hi : i < r.size := hi
        have hnext := hpart i (by omega)
        rw [Nat.zero_add] at hnext
        exact (Memory.blit_slice_inside hi).trans hnext
      · exact Memory.blit_slice_outside hx
  · rename_i hsize
    exact ⟨⟨hs.done, not_not.mp hsize⟩, hcalls⟩

end Reading

-- ---------------------------------------------------------------------------
-- dev_read
-- ---------------------------------------------------------------------------

/-- **Reading bytes.** On a device whose callback transfers whole blocks, `dev_read` fails no
assertion and returns `r` at most `size`, with the bytes of the device from `addr` on in the
first `r` bytes of the buffer. It returns less only after a call that failed. Neither what is
before the buffer nor what is behind its `size` bytes is written; the block for parts, if
there is one, is `dev_read`'s own. -/
theorem dev_read_bytes {d : Device σ} {read : ReadFn σ} {content : Memory} {kalloc : Nat → Nat}
    {dev : σ} {mem : Memory} {buf addr size : Nat} (hread : d.read = some read)
    (hpos : 1 ≤ d.block_size) (hf : Faithful read d.block_size content)
    (hfits : addr + size ≤ wordSize)
    (hapart : kalloc d.block_size + d.block_size ≤ buf ∨ buf + size ≤ kalloc d.block_size) :
    ∃ a, dev_read kalloc d dev mem buf addr size = some a ∧ a.value ≤ size ∧
      (∀ i < a.value, a.mem (buf + i) = content (addr + i)) ∧
      ((∀ c ∈ a.calls, ¬ c.Failed) → a.value = size) ∧
      ∀ x, (x < buf ∨ buf + size ≤ x) →
        (x < kalloc d.block_size ∨ kalloc d.block_size + d.block_size ≤ x) → a.mem x = mem x := by
  by_cases hsize : size = 0
  · refine ⟨⟨0, dev, mem, []⟩, ?_, Nat.zero_le _, fun i hi => absurd hi (Nat.not_lt_zero i),
      fun _ => hsize.symm, fun x _ _ => rfl⟩
    rw [dev_read, hread]
    exact if_pos hsize
  · let q : Request := ⟨content, mem, buf, addr, size, kalloc d.block_size, d.block_size⟩
    have hq : q.Proper := ⟨hpos, hfits, hapart⟩
    have hstart : Served q (⟨dev, mem, buf, addr, size, NULL, []⟩ : Vars σ) := by
      refine ⟨⟨le_rfl, fun i hi => ?_, fun x _ _ => rfl⟩, ?_, ?_, .inl rfl⟩
      · exact absurd hi (by simp [q])
      · simp [q]
      · simp only [q, Nat.sub_self, Nat.add_zero]
        exact (Nat.mod_eq_of_lt (by omega)).symm
    have hk : kalloc q.bs = q.temp := rfl
    have hhead := readHead_section hf hq hk hstart (by simp) (Nat.pos_of_ne_zero hsize)
    have hbody := (hhead.assertion fun r hr => hr.2).andThen fun r hr hc =>
      readBody_section hf hq hr.1 hc hr.2
    have htail := ((hbody.assertion fun r hr => hr.2.1).assertion fun r hr => hr.2.2).andThen
      fun r hr hc => readTail_section hf hq hk hr.1 hc hr.2.1 hr.2.2
    rw [dev_read, hread]
    simp only [if_neg hsize]
    revert htail
    generalize Flow.andThen _ (readTail kalloc read q.bs) = flow
    intro hflow
    have hgot {r : Vars σ} (hr : Delivered q r.mem r.size) : ∀ i < size - r.size,
        r.mem (buf + i) = content (addr + i) := hr.bytes
    cases flow with
    | next r =>
      obtain ⟨⟨hdone, hnone⟩, _⟩ := hflow
      refine ⟨_, rfl, Nat.sub_le .., hgot hdone, ?_, hdone.frame⟩
      intro _
      show size - r.size = size
      rw [hnone, Nat.sub_zero]
    | ret r =>
      obtain ⟨hdone, c, hc, hfailed⟩ := hflow
      exact ⟨_, rfl, Nat.sub_le .., hgot hdone, fun hall => absurd hfailed (hall c hc), hdone.frame⟩
    | halt => exact hflow.elim

section Example

/-- A device that has all its blocks in memory, and fails at the call after the first `left`. -/
def ramRead (content : Memory) (bs : Nat) : ReadFn Nat := fun left mem p block count =>
  if left = 0 then (0, 0, mem)
  else (count, left - 1, mem.blit p (content.slice (block * bs) (count * bs)))

/-- A device that is memory. -/
theorem ramRead_faithful (content : Memory) (bs : Nat) : Faithful (ramRead content bs) bs content where
  le s mem p block count := by
    rw [ramRead]
    split
    · exact Nat.zero_le _
    · exact le_rfl
  stays s mem p block count x hx := by
    rw [ramRead]
    split
    · rfl
    · exact Memory.blit_slice_outside hx
  whole s mem p block count h i hi := by
    rw [ramRead] at h ⊢
    split
    · rename_i hs
      rw [if_pos hs] at h
      rw [← show 0 = count from h, Nat.zero_mul] at hi
      exact absurd hi (Nat.not_lt_zero i)
    · exact Memory.blit_slice_inside hi

/-- Ten bytes from byte 3 on, of blocks of four bytes: a head, two blocks and a tail. -/
def ramAnswer (left : Nat) : Option (Answer Nat) :=
  dev_read (fun _ => 64) ⟨some (ramRead (fun a => UInt8.ofNat a) 4), 4⟩ left (fun _ => 0) 32 3 10

/-- Ten bytes of one, from byte 3 on, in blocks of four. -/
theorem dev_read_bytes_ram : ∃ a, ramAnswer 3 = some a ∧ a.value ≤ 10 ∧
    (∀ i < a.value, a.mem (32 + i) = UInt8.ofNat (3 + i)) ∧
    ((∀ c ∈ a.calls, ¬ c.Failed) → a.value = 10) ∧
    ∀ x, (x < 32 ∨ 32 + 10 ≤ x) → (x < 64 ∨ 64 + 4 ≤ x) → a.mem x = 0 :=
  dev_read_bytes (d := ⟨some (ramRead (fun a => UInt8.ofNat a) 4), 4⟩) rfl (by decide)
    (ramRead_faithful _ 4) (by decide) (.inr (by decide))

/-- The second call fails: only the head was read. -/
example : (ramAnswer 1).map Answer.value = some 1 := by decide

end Example

end Frosk.Dev
