import Mathlib.Tactic
import Frosk.Lib.Bytes
import Frosk.Strings

/-!
# Nodes of the file system

The packed structures of `fs/node.h`, which the kernel and the image builder
share, as the places of their fields in byte memory. A node is named by its
address.
-/

namespace Frosk.Fs

open Lib

/-- `fnode_type_t`. -/
inductive FnodeType where
  | FREE
  | FILE
  | DIRECTORY
  | INDIRECT
  | STRING
  | BLOCK
  | BRANCH
deriving DecidableEq, Repr

/-- The value stored for a node type. -/
def FnodeType.code : FnodeType → Nat
  | .FREE => 0
  | .FILE => 1
  | .DIRECTORY => 2
  | .INDIRECT => 3
  | .STRING => 4
  | .BLOCK => 5
  | .BRANCH => 6

def FnodeType.decode : Nat → Option FnodeType
  | 0 => some .FREE
  | 1 => some .FILE
  | 2 => some .DIRECTORY
  | 3 => some .INDIRECT
  | 4 => some .STRING
  | 5 => some .BLOCK
  | 6 => some .BRANCH
  | _ => none

/-- Types are told by their codes. -/
@[simp] theorem FnodeType.decode_code (t : FnodeType) : FnodeType.decode t.code = some t := by
  cases t <;> rfl

/-- `FNODE_ADD_SIZE`, the bytes before the union. -/
abbrev fnodeAddSize : Nat := 2

/-- `sizeof(fnode_free_t)`. -/
abbrev sizeofFree : Nat := 6

/-- `sizeof(fnode_common_t)`. -/
abbrev sizeofCommon : Nat := 18

/-- `sizeof(fnode_string_t)`. -/
abbrev sizeofString : Nat := 14

/-- `sizeof(fnode_block_t)`. -/
abbrev sizeofBlock : Nat := 22

/-- `sizeof(fnode_branch_t)`. -/
abbrev sizeofBranch : Nat := 30

/-- `sizeof(fmeta_header_t)`. -/
abbrev sizeofHeader : Nat := 32

section Fields

variable (m : Memory) (n : Nat)

/-- `n->type`. -/
def nodeType : Option FnodeType := FnodeType.decode (m.get 1 n)

/-- `n->u.common.name`. -/
def commonName : Nat := m.get 4 (n + 4)

/-- `n->u.common.next`. -/
def commonNext : Nat := m.get 4 (n + 12)

/-- `n->u.common.data`. -/
def commonData : Nat := m.get 4 (n + 16)

/-- `n->u.block.next`. -/
def blockNext : Nat := m.get 4 (n + 4)

/-- `n->u.block.lba`. -/
def blockLba : Nat := m.get 8 (n + 8)

/-- `n->u.block.size`. -/
def blockSize : Nat := m.get 8 (n + 16)

/-- `n->u.branch.lba1`. -/
def branchLba1 : Nat := m.get 8 (n + 8)

/-- `n->u.branch.os_use`. -/
def branchOsUse : Nat := m.get 8 (n + 24)

/-- `hdr->page_size`. -/
def headerPageSize : Nat := m.get 4 (n + 8)

/-- `hdr->root`. -/
def headerRoot : Nat := m.get 4 (n + 16)

end Fields

/-- The macro `FNODE_STRING`: where the characters of a string node are. -/
def fnodeString (n : Nat) : Nat := n + fnodeAddSize + sizeofString

/-- The string at an address, if it ends within `k` bytes. -/
def strAt (m : Memory) : Nat → Nat → Option CStr
  | 0, _ => none
  | k + 1, a =>
    if h : m a = 0 then some ⟨[], CStr.clean_nil⟩
    else (strAt m k (a + 1)).map fun c =>
      ⟨m a :: c.chars, by simpa [eq_comm] using And.intro h c.clean⟩

/-- A string that ends is read with every larger bound. -/
theorem strAt_mono {m : Memory} {k k' a : Nat} {c : CStr} (h : strAt m k a = some c)
    (hle : k ≤ k') : strAt m k' a = some c := by
  induction k generalizing k' a c with
  | zero => simp [strAt] at h
  | succ k ih =>
    obtain ⟨j, rfl⟩ : ∃ j, k' = j + 1 := ⟨k' - 1, by omega⟩
    rw [strAt] at h ⊢
    split at h
    · rename_i hz
      rw [dif_pos hz, h]
    · rename_i hz
      obtain ⟨c', hc', hc⟩ := Option.map_eq_some_iff.mp h
      rw [dif_neg hz, ih hc' (by omega), Option.map_some, hc]

/-- The characters of a string, up to its terminator. -/
theorem strAt_of_slice {m : Memory} {str : CStr} {a k : Nat}
    (h : m.slice a (str.chars.length + 1) = str.chars ++ [0])
    (hk : str.chars.length < k) : strAt m k a = some str := by
  obtain ⟨chars, clean⟩ := str
  induction chars generalizing a k with
  | nil =>
    obtain ⟨k, rfl⟩ := Nat.exists_eq_succ_of_ne_zero (Nat.ne_of_gt hk)
    have hhead : m a = 0 := (List.cons.inj h).1
    rw [strAt, dif_pos hhead]
  | cons c chars ih =>
    obtain ⟨k, rfl⟩ := Nat.exists_eq_succ_of_ne_zero (Nat.ne_of_gt (Nat.zero_lt_of_lt hk))
    rw [List.length_cons, Nat.add_comm (chars.length + 1), Memory.slice_append] at h
    obtain ⟨hhead, htail⟩ := List.cons.inj h
    have hc : m a = c := hhead
    have hne : ¬ m a = 0 := by
      rw [hc]
      exact fun hz => clean (hz ▸ List.mem_cons_self)
    have hlt : chars.length < k := Nat.lt_of_succ_lt_succ hk
    rw [strAt, dif_neg hne, ih (fun hz => clean (List.mem_cons_of_mem _ hz)) htail hlt, Option.map_some]
    exact congrArg some (CStr.mk.injEq .. |>.mpr (congrArg (· :: chars) hc))

end Frosk.Fs
