import Mathlib.Tactic
import Frosk.Common
import Frosk.Lib.Bytes
import Frosk.Dev.Definitions

/-!
# ATA transfers

The embedding of `ata_common`, `ata_pio_read` and `ata_pio_write`, of `dev/block/ata.c`, over
what crosses the bus.

* A drive answers by what crossed the bus before; how often it says that it is busy is its own
  business, as long as it comes to an end (`Drive.Ready`).
* `command` is what a drive makes of its registers when the command register is written: the
  28 bits of the sector, and the count byte, of which 0 stands for 256.
* `Matches` says that the sectors of the command are those whose words the loops transfer.

Main results:

* `ataLoop_transfers` — the loops transfer 256 words for each sector, in order.
* `ata_matches_iff` — command and loops agree exactly for at most 256 sectors.
-/

namespace Frosk.Dev

open Lib

-- ---------------------------------------------------------------------------
-- Definitions
-- ---------------------------------------------------------------------------

/-- What crosses the bus, and the delays between it. -/
inductive Io where
  | outb (port : Nat) (v : UInt8)
  | inb (port : Nat) (v : UInt8)
  | outw (port : Nat) (v : UInt16)
  | inw (port : Nat) (v : UInt16)
  | wait
deriving DecidableEq, Repr

/-- `source_t`. Both places that call `create_ata_pio` leave the low half of the byte zero. -/
structure Source where
  is_slave  : UInt8
  base_port : UInt16
  low       : is_slave.toNat % 16 = 0

/-- `create_ata_pio(in->isa.base, de->atapi.slave << 4)`, in `init_devs`. -/
def Source.isa (base : UInt16) (slave : UInt8) : Source where
  is_slave := slave <<< 4
  base_port := base
  low := by
    rw [UInt8.toNat_shiftLeft]
    have h : slave.toNat <<< (UInt8.toNat 4 % 8) = slave.toNat * 16 := Nat.shiftLeft_eq ..
    omega

/-- `create_ata_pio(edd->io_base, edd->flags & 0x10)`, in `init_devs`. -/
def Source.edd (io_base : UInt16) (flags : UInt8) : Source where
  is_slave := flags &&& 0x10
  base_port := io_base
  low := by
    have h : (flags.toNat &&& 0x10) &&& (2 ^ 4 - 1) = 0 := by rw [Nat.and_assoc]; simp
    rw [UInt8.toNat_and]
    rwa [Nat.and_two_pow_sub_one_eq_mod] at h

/-- What a drive answers to `inb` and `inw`, by what crossed the bus before. -/
structure Drive where
  inb : List Io → Nat → UInt8
  inw : List Io → Nat → UInt16

/-- The bus, the last of what crossed it first, and the memory. -/
structure Bus where
  io  : List Io
  mem : Memory

abbrev uintSize : Nat := 0x100000000

abbrev busyBit : UInt8 := 0x80

abbrev readCommand : UInt8 := 0x20

abbrev writeCommand : UInt8 := 0x30

/-- The argument `src->base_port + k` of `inb` and `outb`, a `ushort`. -/
def port (src : Source) (k : Nat) : Nat := (src.base_port.toNat + k) % 0x10000

/-- `io_wait` writes to port 0x80, where no drive is. -/
def io_wait (io : List Io) : List Io := .wait :: io

def ata_common (lba blcks : Nat) (cmd : UInt8) (src : Source) (io : List Io) : List Io :=
  let io := .outb (port src 6) (UInt8.ofNat (0xE0 ||| ((lba >>> 24) &&& 0xf) ||| src.is_slave.toNat)) :: io
  let io := .outb (port src 1) 0 :: io
  let io := .outb (port src 2) (UInt8.ofNat blcks) :: io
  let io := .outb (port src 3) (UInt8.ofNat lba) :: io
  let io := .outb (port src 4) (UInt8.ofNat (lba >>> 8)) :: io
  let io := .outb (port src 5) (UInt8.ofNat (lba >>> 16)) :: io
  let io := .outb (port src 7) cmd :: io
  io_wait (io_wait (io_wait (io_wait io)))

section Loops

variable (d : Drive) (src : Source)

/-- A round of the loop of `wait_busy`. -/
def pollBody (b : Bus) : Bus ⊕ Bus :=
  let status := d.inb b.io (port src 7)
  let b := { b with io := .inb (port src 7) status :: b.io }
  if status &&& busyBit ≠ 0 then .inl b else .inr b

def wait_busy (fuel : Nat) (b : Bus) : Option Bus := iterate (pollBody d src) fuel b

/-- `((ushort *)data)[k] = inw(src->base_port)` -/
def readWord (data k : Nat) (b : Bus) : Bus :=
  let v := d.inw b.io (port src 0)
  { io := .inw (port src 0) v :: b.io, mem := b.mem.put 2 (data + 2 * k) v.toNat }

/-- `outw(src->base_port, ((ushort *)data)[k])` -/
def writeWord (data k : Nat) (b : Bus) : Bus :=
  { b with io := .outw (port src 0) (UInt16.ofNat (b.mem.get 2 (data + 2 * k))) :: b.io }

/-- The inner loop; `i` and `j` are of type `uint`. -/
def sector (word : Nat → Bus → Bus) (i : Nat) (b : Bus) : Bus :=
  (List.range 0x100).foldl (fun b j => word ((i * 0x100 + j) % uintSize) b) b

/-- The loop over the sectors. -/
def ataLoop (word : Nat → Bus → Bus) (size : Nat) : Nat → Nat → Bus → Option Bus
  | 0, _, _ => none
  | fuel + 1, i, b =>
    if i < size then
      (wait_busy d src fuel b).bind fun b =>
        ataLoop word size fuel ((i + 1) % uintSize) (sector word i b)
    else some b

/-- What `ata_pio_read` and `ata_pio_write` have in common. -/
def ata_pio (cmd : UInt8) (word : Nat → Bus → Bus) (fuel offset size : Nat) (b : Bus) :
    Option (Nat × Bus) :=
  if size = 0 then some (0, b)
  else
    (ataLoop d src word size fuel 0
      { b with io := ata_common offset (size % uintSize) cmd src b.io }).map fun b => (size, b)

def ata_pio_read (fuel data offset size : Nat) (b : Bus) : Option (Nat × Bus) :=
  ata_pio d src readCommand (readWord d src data) fuel offset size b

def ata_pio_write (fuel data offset size : Nat) (b : Bus) : Option (Nat × Bus) :=
  ata_pio d src writeCommand (writeWord src data) fuel offset size b

end Loops

-- ---------------------------------------------------------------------------
-- What the drive makes of it
-- ---------------------------------------------------------------------------

/-- A command to transfer sectors of the drive that `slave` selects. -/
structure Command where
  cmd   : UInt8
  slave : Bool
  lba   : Nat
  count : Nat
deriving DecidableEq, Repr

def Command.sectors (c : Command) : Set Nat := {n | c.lba ≤ n ∧ n < c.lba + c.count}

/-- The byte in a register: the last one put out to it. -/
def latch (p : Nat) : List Io → UInt8
  | .outb q v :: io => if q = p then v else latch p io
  | _ :: io => latch p io
  | [] => 0

/-- An LBA28 command by the registers; bit 6 of the drive register says that it is one. -/
def decode (src : Source) (cmd : UInt8) (io : List Io) : Option Command :=
  let drive := (latch (port src 6) io).toNat
  let count := (latch (port src 2) io).toNat
  if drive.testBit 6 then
    some {
      cmd
      slave := drive.testBit 4
      lba := (latch (port src 3) io).toNat + (latch (port src 4) io).toNat * 2 ^ 8 +
        (latch (port src 5) io).toNat * 2 ^ 16 + drive % 16 * 2 ^ 24
      count := if count = 0 then 256 else count }
  else none

/-- The last command that crossed the bus. -/
def command (src : Source) : List Io → Option Command
  | .outb q v :: io => if q = port src 7 then decode src v io else command src io
  | _ :: io => command src io
  | [] => none

/-- A data word that crossed the bus. -/
def Io.word : Io → Option UInt16
  | .inw _ v => some v
  | .outw _ v => some v
  | _ => none

/-- The data words, the first one first. -/
def dataWords (io : List Io) : List UInt16 := (io.filterMap Io.word).reverse

/-- The drive does not stay busy for ever. -/
def Drive.Ready (d : Drive) (src : Source) : Prop := ∀ b, ∃ b', Exits (pollBody d src) b b'

/-- **A transfer that matches its command.** The sectors of the command that the drive got are
`size` sectors from `offset` on, and the words that crossed the bus after it are the words of
as many sectors, in their order, at `data`. -/
structure Matches (src : Source) (cmd : UInt8) (data offset size : Nat) (b b' : Bus) : Prop where
  sent    : ∃ c, command src b'.io = some c ∧ c.cmd = cmd ∧
              c.slave = src.is_slave.toNat.testBit 4 ∧ c.sectors = {n | offset ≤ n ∧ n < offset + size}
  words   : ∃ ws, dataWords b'.io = dataWords b.io ++ ws ∧ ws.length = 256 * size ∧
              ∀ k (hk : k < ws.length), b'.mem.get 2 (data + 2 * k) = ws[k].toNat
  outside : ∀ x, (x < data ∨ data + 512 * size ≤ x) → b'.mem x = b.mem x

-- ---------------------------------------------------------------------------
-- The command
-- ---------------------------------------------------------------------------

section Proofs

variable {d : Drive} {src : Source} {data : Nat} {word : Nat → Bus → Bus}

/-- The registers of a drive have different ports. -/
@[simp] theorem port_eq_iff {j k : Nat} (hj : j < 8) (hk : k < 8) :
    port src j = port src k ↔ j = k := by
  unfold port
  omega

/-- The drive register: four bits of the sector, the drive, and a bit that says LBA. -/
theorem drive_register (src : Source) (n : Nat) :
    (UInt8.ofNat (0xE0 ||| (n &&& 0xf) ||| src.is_slave.toNat)).toNat % 16 = n % 16 ∧
      (UInt8.ofNat (0xE0 ||| (n &&& 0xf) ||| src.is_slave.toNat)).toNat.testBit 6 = true ∧
      (UInt8.ofNat (0xE0 ||| (n &&& 0xf) ||| src.is_slave.toNat)).toNat.testBit 4 =
        src.is_slave.toNat.testBit 4 := by
  have hn : n &&& 0xf = n % 2 ^ 4 := Nat.and_two_pow_sub_one_eq_mod n 4
  rw [UInt8.toNat_ofNat', hn]
  refine ⟨?_, ?_, ?_⟩
  · have hlow : src.is_slave.toNat % 2 ^ 4 = 0 := src.low
    have hor : (0xE0 ||| n % 2 ^ 4 ||| src.is_slave.toNat) % 2 ^ 4 = n % 2 ^ 4 := by
      rw [Nat.or_mod_two_pow, Nat.or_mod_two_pow, hlow, Nat.mod_mod, Nat.or_zero]
      exact Nat.zero_or _
    omega
  · rw [Nat.testBit_mod_two_pow, Nat.testBit_or, Nat.testBit_or]
    have hset : Nat.testBit 0xE0 6 = true := by decide
    simp only [hset, Bool.true_or]
    rfl
  · rw [Nat.testBit_mod_two_pow, Nat.testBit_or, Nat.testBit_or, Nat.testBit_mod_two_pow]
    have hclear : Nat.testBit 0xE0 4 = false := by decide
    simp [hclear]

/-- The sector, put together from its four registers. -/
theorem sector_registers {offset : Nat} (h : offset < 2 ^ 28) :
    offset % 256 + offset >>> 8 % 256 * 2 ^ 8 + offset >>> 16 % 256 * 2 ^ 16 +
      offset >>> 24 % 16 * 2 ^ 24 = offset := by
  simp only [Nat.shiftRight_eq_div_pow]
  omega

/-- What `ata_common` makes the drive do. -/
theorem command_ata_common {offset : Nat} (h : offset < 2 ^ 28) (blcks : Nat) (cmd : UInt8)
    (io : List Io) :
    command src (ata_common offset blcks cmd src io) =
      some ⟨cmd, src.is_slave.toNat.testBit 4, offset,
        if blcks % 256 = 0 then 256 else blcks % 256⟩ := by
  obtain ⟨hmod, hlba, hdrive⟩ := drive_register src (offset >>> 24)
  have hsector := sector_registers h
  simp only [ata_common, io_wait, command, decode, latch, port_eq_iff, Nat.reduceLT,
    Nat.reduceEqDiff, ↓reduceIte, hmod, hlba, hdrive]
  simp only [UInt8.toNat_ofNat', hsector]

-- ---------------------------------------------------------------------------
-- The loops
-- ---------------------------------------------------------------------------

/-- A step that moves word `k` between the bus and its place in memory. -/
def Carries (src : Source) (data : Nat) (word : Nat → Bus → Bus) : Prop :=
  ∀ k b, command src (word k b).io = command src b.io ∧
    (∃ v, dataWords (word k b).io = dataWords b.io ++ [v] ∧
      (word k b).mem.get 2 (data + 2 * k) = v.toNat) ∧
    ∀ x, (x < data + 2 * k ∨ data + 2 * k + 2 ≤ x) → (word k b).mem x = b.mem x

/-- A read carries one word to memory. -/
theorem readWord_carries (d : Drive) (src : Source) (data : Nat) :
    Carries src data (readWord d src data) := by
  intro k b
  refine ⟨rfl, ⟨_, List.reverse_cons .., ?_⟩, fun x hx => Memory.put_outside hx⟩
  refine Memory.get_put_self ?_
  exact (d.inw b.io (port src 0)).toNat_lt

/-- A write carries one word to the drive. -/
theorem writeWord_carries (src : Source) (data : Nat) : Carries src data (writeWord src data) := by
  intro k b
  refine ⟨rfl, ⟨_, List.reverse_cons .., ?_⟩, fun x hx => rfl⟩
  rw [UInt16.toNat_ofNat']
  exact (Nat.mod_eq_of_lt Memory.get_lt).symm

/-- After `n` words. -/
structure Moved (src : Source) (data n : Nat) (b b' : Bus) : Prop where
  sent    : command src b'.io = command src b.io
  words   : ∃ ws, dataWords b'.io = dataWords b.io ++ ws ∧ ws.length = n ∧
              ∀ k (hk : k < ws.length), b'.mem.get 2 (data + 2 * k) = ws[k].toNat
  outside : ∀ x, (x < data ∨ data + 2 * n ≤ x) → b'.mem x = b.mem x

theorem moved_zero (src : Source) (data : Nat) (b : Bus) : Moved src data 0 b b :=
  ⟨rfl, ⟨[], (List.append_nil _).symm, rfl, by simp⟩, fun _ _ => rfl⟩

/-- One more word. -/
theorem Moved.next {n : Nat} {b b' : Bus} (hm : Moved src data n b b') (hw : Carries src data word) :
    Moved src data (n + 1) b (word n b') := by
  obtain ⟨hsent, ⟨v, hv, hget⟩, hout⟩ := hw n b'
  obtain ⟨ws, hws, hlen, hall⟩ := hm.words
  refine ⟨hsent.trans hm.sent, ⟨ws ++ [v], ?_, ?_, ?_⟩, ?_⟩
  · rw [hv, hws, List.append_assoc]
  · rw [List.length_append, hlen, List.length_singleton]
  · intro k hk
    by_cases hold : k < ws.length
    · have hkeep : (word n b').mem.get 2 (data + 2 * k) = b'.mem.get 2 (data + 2 * k) :=
        Memory.get_congr fun i hi => hout _ (by omega)
      rw [hkeep, hall k hold, List.getElem_append_left hold]
    · have hlast : k = ws.length := by
        rw [List.length_append, List.length_singleton] at hk
        omega
      subst hlast
      rw [List.getElem_concat_length rfl, hlen, hget]
  · intro x hx
    rw [hout x (by omega), hm.outside x (by omega)]

/-- Polling moves no word. -/
theorem Moved.poll {n : Nat} {b b' b₁ : Bus} (hm : Moved src data n b b')
    (hpoll : Exits (pollBody d src) b' b₁) : Moved src data n b b₁ := by
  have hround : ∀ b' b₁, Moved src data n b b' → Moved src data n b
      { b' with io := .inb (port src 7) b₁ :: b'.io } := fun _ _ h => ⟨h.sent, h.words, h.outside⟩
  obtain ⟨fuel, hfuel⟩ := hpoll
  refine iterate_invariant (Moved src data n b) (Moved src data n b) ?_ ?_ hm hfuel
  · intro b₁ b₂ h hbody
    simp only [pollBody] at hbody
    split at hbody
    · exact Sum.inl.inj hbody ▸ hround b₁ _ h
    · cases hbody
  · intro b₁ b₂ h hbody
    simp only [pollBody] at hbody
    split at hbody
    · cases hbody
    · exact Sum.inr.inj hbody ▸ hround b₁ _ h

theorem Moved.sector {i : Nat} {b b' : Bus} (hm : Moved src data (256 * i) b b')
    (hw : Carries src data word) (hi : 256 * (i + 1) ≤ uintSize) :
    Moved src data (256 * (i + 1)) b (sector word i b') := by
  have hwords : ∀ n ≤ 256, Moved src data (256 * i + n) b
      ((List.range n).foldl (fun b j => word ((i * 0x100 + j) % uintSize) b) b') := by
    intro n hn
    induction n with
    | zero => exact hm
    | succ n ih =>
      have hidx : (i * 0x100 + n) % uintSize = 256 * i + n := by
        rw [Nat.mod_eq_of_lt (by omega), Nat.mul_comm]
      rw [List.range_succ, List.foldl_append, List.foldl_cons, List.foldl_nil, hidx]
      exact (ih (by omega)).next hw
  exact hwords 256 le_rfl

/-- **The loops** transfer 256 words for each sector, when there are no more than a `uint`
can count. -/
theorem ataLoop_transfers (hd : d.Ready src) (hw : Carries src data word) {size : Nat}
    (hsize : 256 * size ≤ uintSize) {b : Bus} (n : Nat) {i : Nat} (hi : size = i + n) {b' : Bus}
    (hm : Moved src data (256 * i) b b') :
    ∃ N b'', (∀ fuel, N ≤ fuel → ataLoop d src word size fuel i b' = some b'') ∧
      Moved src data (256 * size) b b'' := by
  induction n generalizing i b' with
  | zero =>
    obtain rfl : size = i := hi
    refine ⟨1, b', ?_, hm⟩
    intro fuel hfuel
    obtain ⟨k, rfl⟩ : ∃ k, fuel = k + 1 := ⟨fuel - 1, by omega⟩
    rw [ataLoop, if_neg (Nat.lt_irrefl _)]
  | succ n ih =>
    obtain ⟨b₁, p, hp⟩ := hd b'
    have hnext : (i + 1) % uintSize = i + 1 := Nat.mod_eq_of_lt (by omega)
    obtain ⟨N, b'', hrest, hend⟩ :=
      ih (i := i + 1) (by omega) ((hm.poll ⟨p, hp⟩).sector hw (by omega))
    refine ⟨max p N + 1, b'', ?_, hend⟩
    intro fuel hfuel
    obtain ⟨k, rfl⟩ : ∃ k, fuel = k + 1 := ⟨fuel - 1, by omega⟩
    have hwait : wait_busy d src k b' = some b₁ := iterate_mono hp (by omega)
    rw [ataLoop, if_pos (by omega), hwait, Option.bind_some, hnext]
    exact hrest k (by omega)

/-- However far the loops come, the last command is that of `ata_common`. -/
theorem ataLoop_command (hw : Carries src data word) {size fuel i : Nat} {b b' : Bus}
    (h : ataLoop d src word size fuel i b = some b') : command src b'.io = command src b.io := by
  induction fuel generalizing i b with
  | zero => cases h
  | succ fuel ih =>
    rw [ataLoop] at h
    split at h
    · obtain ⟨b₁, hwait, hrest⟩ := Option.bind_eq_some_iff.mp h
      have hpoll : command src b₁.io = command src b.io :=
        ((moved_zero src data b).poll ⟨fuel, hwait⟩).sent
      have hsector : command src (sector word i b₁).io = command src b₁.io := by
        rw [sector]
        induction List.range 0x100 using List.reverseRecOn with
        | nil => rfl
        | append_singleton js j ih =>
          rw [List.foldl_append, List.foldl_cons, List.foldl_nil, (hw _ _).1, ih]
      exact (ih hrest).trans (hsector.trans hpoll)
    · rw [Option.some.inj h]

-- ---------------------------------------------------------------------------
-- Commands and transfers
-- ---------------------------------------------------------------------------

/-- The sectors of a command determine how many they are. -/
theorem count_eq_of_sectors {c : Command} {offset size : Nat} (hpos : 0 < size)
    (h : c.sectors = {n | offset ≤ n ∧ n < offset + size}) : c.count = size := by
  have hmem : ∀ n, (c.lba ≤ n ∧ n < c.lba + c.count) ↔ (offset ≤ n ∧ n < offset + size) :=
    fun n => Set.ext_iff.mp h n
  have hfirst := (hmem offset).mpr ⟨le_rfl, by omega⟩
  have hlast := (hmem (offset + size - 1)).mpr ⟨by omega, by omega⟩
  have hlba := (hmem c.lba).mp ⟨le_rfl, by omega⟩
  have hend := (hmem (c.lba + c.count - 1)).mp ⟨by omega, by omega⟩
  omega

/-- A transfer of `size` sectors that comes to an end and matches its command. -/
def Transfers (src : Source) (cmd : UInt8) (data offset size : Nat) (b : Bus)
    (pio : Nat → Option (Nat × Bus)) : Prop :=
  ∃ fuel b', pio fuel = some (size, b') ∧ Matches src cmd data offset size b b'

/-- Up to 256 sectors are moved, each word once and in order. -/
theorem ata_pio_transfers (hd : d.Ready src) (hw : Carries src data word) {offset size : Nat}
    (hoff : offset < 2 ^ 28) (hpos : 0 < size) (hsize : size ≤ 256) (cmd : UInt8) (b : Bus) :
    Transfers src cmd data offset size b fun fuel => ata_pio d src cmd word fuel offset size b := by
  obtain ⟨N, b', hloop, hmoved⟩ := ataLoop_transfers (i := 0) hd hw
    (by unfold uintSize; omega : 256 * size ≤ uintSize) size (Nat.zero_add size).symm
    (moved_zero src data
      { b with io := ata_common offset (size % uintSize) cmd src b.io })
  refine ⟨N, b', ?_, ⟨⟨_, hmoved.sent.trans (command_ata_common hoff ..), rfl, rfl, ?_⟩, ?_, ?_⟩⟩
  · simp only [ata_pio, if_neg hpos.ne', hloop N le_rfl, Option.map_some]
  · have hcount : (if size % uintSize % 256 = 0 then 256 else size % uintSize % 256) = size := by
      unfold uintSize
      split <;> omega
    rw [Command.sectors, hcount]
  · exact hmoved.words
  · intro x hx
    exact hmoved.outside x (by omega)

/-- A command for more than 256 sectors names fewer. -/
theorem ata_pio_truncates (hw : Carries src data word) {offset size : Nat} (hoff : offset < 2 ^ 28)
    (hsize : 256 < size) (cmd : UInt8) (b : Bus) :
    ¬ Transfers src cmd data offset size b
      fun fuel => ata_pio d src cmd word fuel offset size b := by
  rintro ⟨fuel, b', hrun, hmatch⟩
  simp only [ata_pio, if_neg (Nat.ne_of_gt (Nat.zero_lt_of_lt hsize)), Option.map_eq_some_iff,
    Prod.mk.injEq] at hrun
  obtain ⟨b₁, hloop, -, rfl⟩ := hrun
  obtain ⟨c, hc, -, -, hsectors⟩ := hmatch.sent
  rw [ataLoop_command hw hloop, command_ata_common hoff, Option.some_inj] at hc
  have hcount := count_eq_of_sectors (by omega) hsectors
  have hbyte : c.count = if size % uintSize % 256 = 0 then 256 else size % uintSize % 256 := by
    rw [← hc]
  split at hbyte <;> omega

/-- **ATA transfers** match their command, in both directions, exactly when they are of at most
256 sectors: the count is cut to a byte, and the loops go by all of it. -/
theorem ata_matches_iff (hd : d.Ready src) {offset size : Nat} (hoff : offset < 2 ^ 28)
    (hpos : 0 < size) (data : Nat) (b : Bus) :
    (Transfers src readCommand data offset size b
        fun fuel => ata_pio_read d src fuel data offset size b) ∧
      (Transfers src writeCommand data offset size b
        fun fuel => ata_pio_write d src fuel data offset size b) ↔
    size ≤ 256 := by
  constructor
  · rintro ⟨hread, -⟩
    by_contra hgt
    exact ata_pio_truncates (readWord_carries d src data) hoff (by omega) _ b hread
  · intro hle
    exact ⟨ata_pio_transfers hd (readWord_carries d src data) hoff hpos hle _ b,
      ata_pio_transfers hd (writeWord_carries src data) hoff hpos hle _ b⟩

end Proofs

section Example

/-- The first drive of the usual controller, never busy. -/
def idle : Drive := ⟨fun _ _ => 0, fun io _ => UInt16.ofNat io.length⟩

def primary : Source := Source.isa 0x1F0 0

/-- A drive that is never busy is ready. -/
theorem idle_ready : idle.Ready primary := by
  intro b
  have hbody : pollBody idle primary b = .inr { b with io := .inb (port primary 7) 0 :: b.io } := by
    simp [pollBody, idle]
  exact ⟨_, exits_of_inr hbody⟩

/-- The largest count, in both directions. -/
theorem ata_matches_last :
    (Transfers primary readCommand 0 5 256 ⟨[], fun _ => 0⟩
        fun fuel => ata_pio_read idle primary fuel 0 5 256 ⟨[], fun _ => 0⟩) ∧
      (Transfers primary writeCommand 0 5 256 ⟨[], fun _ => 0⟩
        fun fuel => ata_pio_write idle primary fuel 0 5 256 ⟨[], fun _ => 0⟩) :=
  (ata_matches_iff idle_ready (by decide) (by decide) 0 _).mpr le_rfl

/-- A file of 257 sectors is read with one call for 257 sectors, and the command is for one. -/
theorem count_truncated :
    (dev_read (fun _ => 0) ⟨some fun _ mem _ _ n => (n, (), mem), 512⟩ () (fun _ => 0) 0 0
        (257 * 512)).map Answer.calls = some [⟨0, 257, 257⟩] ∧
      ¬ Transfers primary readCommand 0 0 257 ⟨[], fun _ => 0⟩
        fun fuel => ata_pio_read idle primary fuel 0 0 257 ⟨[], fun _ => 0⟩ :=
  ⟨by decide, ata_pio_truncates (readWord_carries idle primary 0) (by decide) (by decide) _ _⟩

end Example

end Frosk.Dev
