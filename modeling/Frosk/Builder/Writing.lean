import Mathlib.Tactic
import Frosk.Lib.Bytes
import Frosk.Builder.Entries

/-!
# The image builder: the image

The embedding of `write_fs` of `util/fsb/src/fs.c`.

* The image is a stream with a position. What was never written is zero. `fseek` takes a
  `long`, and fails for a place that is none, which the builder does not notice.
* `wn` of `write_node` is in part not set, and is then what the stack held. The bytes at
  the places of its fields are written as `fs/node.h` has them.
-/

namespace Frosk.Builder

open Lib Fs

-- ---------------------------------------------------------------------------
-- Streams
-- ---------------------------------------------------------------------------

structure Stream where
  bytes : Memory
  pos   : Nat

namespace Stream

/-- An image before anything is written. -/
def new : Stream := ⟨fun _ => 0, 0⟩

/-- `fseek(f, loc, SEEK_SET)`. -/
def fseek (loc : Nat) (f : Stream) : Stream := if loc < 2 ^ 63 then { f with pos := loc } else f

/-- `fwrite`, or `fputc` for each byte. -/
def fwrite (l : List UInt8) (f : Stream) : Stream := ⟨f.bytes.blit f.pos l, f.pos + l.length⟩

end Stream

-- ---------------------------------------------------------------------------
-- write_node
-- ---------------------------------------------------------------------------

/-- The macro `getptr`. -/
def getptr (s : Image) (n : Ptr) : Nat := if n = NULL then 0 else (s.node n).ptr

/-- The entry of a node in its block. -/
def Image.index (s : Image) (n loc : Ptr) : Nat := (s.node n).ptr / 2 ^ (s.metaAt loc).shift % 0x100

/-- `wn.next`. -/
def nextIndex (s : Image) (n : Ptr) : Nat :=
  if (s.node n).next ≠ NULL then s.index (s.node n).next (s.node n).location else 0

/-- The node `wn`. -/
def fnode (H : Host) (s : Image) (n : Ptr) : Memory :=
  let wn := ((H.frame n).put 1 0 (s.node n).type.code).put 1 1 (nextIndex s n)
  match (s.node n).type with
  | .FREE => (wn.put 4 4 (getptr s (s.node n).freeNext)).put 2 2 (s.node n).size
  | .FILE | .DIRECTORY | .INDIRECT =>
    let c := s.common n
    ((((wn.put 2 2 c.perm).put 4 4 (getptr s c.name)).put 4 8 (getptr s c.owner)).put 4 12
      (getptr s c.next)).put 4 16 (getptr s c.data)
  | .STRING =>
    let c := s.string n
    (((wn.put 2 2 c.size).put 4 4 (getptr s c.next)).put 4 8 (getptr s c.left)).put 4 12
      (getptr s c.right)
  | .BLOCK =>
    let c := s.block n
    ((wn.put 4 4 (getptr s c.next)).put 8 8 c.lba).put 8 16 c.size
  | .BRANCH =>
    let m := s.metaAt (s.node n).freeNext
    ((wn.put 1 2 m.subs).put 8 8 m.lba).put 8 16 (m.lba + 1)

/-- The bytes of a node in its block. -/
def nodeBytes (H : Host) (s : Image) (n : Ptr) : List UInt8 :=
  match (s.node n).type with
  | .FREE => (fnode H s n).slice 0 (sizeofFree + fnodeAddSize)
  | .STRING => (fnode H s n).slice 0 (sizeofString + fnodeAddSize) ++
      ((s.string n).value.chars ++ [0]).take (s.string n).size
  | _ => (fnode H s n).slice 0 (s.node n).size

/-- Where `seek_node` goes for the copy `bl`. -/
def nodePlace (s : Image) (n : Ptr) (bl : Nat) : Nat :=
  (((s.metaAt (s.node n).location).lba + bl) * s.blockSize +
    s.index n (s.node n).location * 0x10) % wordSize

/-- One copy of a node, over zeros. -/
def writeCopy (H : Host) (s : Image) (n : Ptr) (bl : Nat) (f : Stream) : Stream :=
  let f := (f.fseek (nodePlace s n bl)).fwrite (List.replicate (s.node n).size 0)
  (f.fseek (nodePlace s n bl)).fwrite (nodeBytes H s n)

/-- The first `n` bytes of a file, by `fgetc`; behind the end there is `EOF`. -/
def fileBytes (bytes : List UInt8) (n : Nat) : List UInt8 :=
  (List.range n).map fun i => (bytes[i]?).getD 0xff

/-- The contents of a file, and zeros up to the end of the last block. -/
def writeData (H : Host) (s : Image) (n : Ptr) (f : Stream) : Option Stream := do
  let filename ← (s.block n).filename
  let bytes ← H.file filename
  let size := (s.block n).size
  let pad := (s.blockSize - size % s.blockSize) % s.blockSize
  let g := f.fseek (s.blockSize * (s.block n).lba % wordSize)
  let g := (g.fwrite (fileBytes bytes size)).fwrite (List.replicate pad 0)
  some (g.fseek f.pos)

/-- `write_node`. -/
def writeNode (H : Host) (s : Image) : Nat → Ptr → Stream → Option Stream
  | 0, _, _ => none
  | k + 1, n, f =>
    if n = NULL then some f
    else if (s.node n).next ≠ NULL ∧
        ((s.node (s.node n).next).location ≠ (s.node n).location ∨ nextIndex s n = 0) then none
    else do
      let f ← (match (s.node n).type with
        | .BLOCK => writeData H s n f
        | .BRANCH =>
          if (s.node n).freeNext = NULL then none
          else writeNode H s k (s.metaAt (s.node n).freeNext).first f
        | _ => some f)
      writeNode H s k (s.node n).next (writeCopy H s n 1 (writeCopy H s n 0 f))

-- ---------------------------------------------------------------------------
-- write_fs
-- ---------------------------------------------------------------------------

/-- `FROSK_FS_MARK`. -/
def froskFsMark : List UInt8 := "Frosk FS".toList.map Char.toUInt8

/-- The header of an image. -/
def header (s : Image) : List UInt8 :=
  froskFsMark ++ ([s.blockSize, 0, getptr s s.root, getptr s s.freeMeta, getptr s s.freeData,
    getptr s s.strtbl].flatMap (leBytes 4))

/-- `write_fs`. -/
def writeFs (H : Host) (s : Image) (k : Nat) (f : Stream) : Option Stream := do
  let f := (f.fseek 0).fwrite (List.replicate s.blockSize 0)
  let f ← (if s.firstMeta = NULL then some f else writeNode H s k (s.metaAt s.firstMeta).first f)
  let f := (f.fseek s.blockSize).fwrite (header s)
  some ((f.fseek (s.blockSize * 2 % uintSize)).fwrite (header s))

end Frosk.Builder
