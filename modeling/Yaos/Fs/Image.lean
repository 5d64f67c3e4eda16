import Mathlib.Algebra.Group.Nat.Defs
import Mathlib.Logic.Function.Basic
import Yaos.Lib.Prog

/-!
# File system images (`tools/libfs.c`): blocks and files

An image is mapped into memory as an array of blocks. Its parts do not
overlap, so they are kept apart: the super block, the inodes, the bits of the
bitmap and the contents of the data blocks. An access to a data block through
a number that is none (`.fault`) would leave these parts; that no such access
happens is part of what is proved.

`fatal` leaves a command by `longjmp` and the image is a shared mapping: what
has been written so far stays. So programs keep their state when they stop.

Inode pointers are inode numbers. Numbers are of type `Nat`; the fields of an
inode that no function reads (the device numbers) and the messages that are
printed are left out. The layout is that of the comment at the top of the
file; the block of an inode or of a bit is not modelled.
-/

namespace Yaos.Fs

open Yaos.Lib Function

/-- `BSIZE`. -/
def bsize : Nat := 512

/-- `IPB`, the inodes of a block. -/
def ipb : Nat := 8

/-- `NDIRECT`. -/
def ndirect : Nat := 12

/-- `NINDIRECT`. -/
def nindirect : Nat := 128

/-- `MAXFILESIZE`. -/
def maxFileSize : Nat := (ndirect + nindirect) * bsize

/-- `type` of an inode: `0`, `T_DIR`, `T_FILE`, `T_DEV`. -/
inductive FileType where
  | free
  | dir
  | file
  | dev
  deriving DecidableEq

/-- `struct dinode`. `addrs` has `NDIRECT + 1` elements. -/
structure Inode where
  type : FileType
  nlink : Nat
  size : Nat
  addrs : Nat → Nat

/-- `struct superblock`. -/
structure Super where
  size : Nat
  nblocks : Nat
  ninodes : Nat
  nlog : Nat

structure Img where
  sb : Super
  inode : Nat → Inode
  bit : Nat → Bool
  data : Nat → Nat → UInt8

inductive Stop where
  /-- `balloc: .. invalid data block number` -/
  | invalidBlock (b : Nat)
  /-- `balloc: no free blocks` -/
  | noFreeBlocks
  /-- `ialloc: cannot allocate` -/
  | noFreeInodes
  /-- a failed `assert` -/
  | assert
  /-- an access outside the data blocks, or through an undefined value -/
  | fault
  /-- a loop that has not ended within its fuel -/
  | spin
  deriving DecidableEq

abbrev FsM := Prog Stop Img

open Prog

/-! ## Blocks -/

/-- The first data block: boot block, super block, inode and bitmap blocks
come before it. -/
def Super.dataStart (sb : Super) : Nat := 2 + (sb.ninodes / ipb + 1) + (sb.size / (bsize * 8) + 1)

/-- `valid_data_block`. -/
def Super.validDataBlock (sb : Super) (b : Nat) : Bool :=
  sb.dataStart ≤ b ∧ b ≤ sb.dataStart + sb.nblocks - 1

def Img.setBit (img : Img) (b : Nat) (v : Bool) : Img :=
  { img with bit := update img.bit b v }

def Img.setData (img : Img) (b : Nat) (bytes : Nat → UInt8) : Img :=
  { img with data := update img.data b bytes }

/-- `balloc`. The loops over the bytes of the bitmap blocks go through the
bits in order. The bit is set before the number is looked at. -/
def balloc : FsM Nat := do
  let img ← gets id
  match (List.range img.sb.size).find? fun b => !img.bit b with
  | none => stop .noFreeBlocks
  | some b => do
      modify fun img => img.setBit b true
      if img.sb.validDataBlock b then do
        modify fun img => img.setData b fun _ => 0
        pure b
      else stop (.invalidBlock b)

/-- `bfree`. No caller looks at the result. -/
def bfree (b : Nat) : FsM Unit := do
  let sb ← gets Img.sb
  if sb.validDataBlock b then modify fun img => img.setBit b false
  else pure ()

def deref (b : Nat) : FsM Unit := do
  let sb ← gets Img.sb
  if sb.validDataBlock b then pure () else stop .fault

/-! ## Inodes -/

def Img.setInode (img : Img) (i : Nat) (f : Inode → Inode) : Img :=
  { img with inode := update img.inode i (f (img.inode i)) }

/-- `ip->addrs[k] = b`. -/
def Img.setAddr (img : Img) (ip k b : Nat) : Img :=
  img.setInode ip fun d => { d with addrs := update d.addrs k b }

/-- `iget`. -/
def Super.iget (sb : Super) (inum : Nat) : Option Nat :=
  if 0 < inum ∧ inum < sb.ninodes then some inum else none

/-- `ialloc`. -/
def ialloc (type : FileType) : FsM Nat := do
  let img ← gets id
  match (List.range' 1 (img.sb.ninodes - 1)).find? fun i => (img.inode i).type = .free with
  | none => stop .noFreeInodes
  | some i => do
      modify fun img => img.setInode i fun _ => ⟨type, 0, 0, fun _ => 0⟩
      pure i

/-- `ifree`. The result is never looked at. -/
def ifree (inum : Nat) : FsM Unit := do
  let sb ← gets Img.sb
  match sb.iget inum with
  | none => pure ()
  | some ip => modify fun img => img.setInode ip fun d => { d with type := .free }

/-- An element of a block seen as an array of `uint`, the low byte first. -/
def word (bytes : Nat → UInt8) (k : Nat) : Nat :=
  (bytes (4 * k)).toNat + 256 * ((bytes (4 * k + 1)).toNat +
    256 * ((bytes (4 * k + 2)).toNat + 256 * (bytes (4 * k + 3)).toNat))

def setWord (bytes : Nat → UInt8) (k v : Nat) : Nat → UInt8 := fun o =>
  if o / 4 = k then UInt8.ofNat (v / 256 ^ (o % 4)) else bytes o

/-- `iblock[k] = v`. -/
def Img.setWord (img : Img) (b k v : Nat) : Img := img.setData b (Fs.setWord (img.data b) k v)

/-- `if (addr == 0) { addr = balloc(img); .. = addr; }` -/
def ensure (addr : Nat) (store : Img → Nat → Img) : FsM Nat :=
  if addr = 0 then do
    let addr ← balloc
    modify fun img => store img addr
    pure addr
  else pure addr

/-- `bmap`. -/
def bmap (ip n : Nat) : FsM Nat :=
  if n < ndirect then do
    let addr ← gets fun img => (img.inode ip).addrs n
    ensure addr fun img b => img.setAddr ip n b
  else if nindirect ≤ n - ndirect then pure 0
  else do
    let iaddr ← gets fun img => (img.inode ip).addrs ndirect
    let iaddr ← ensure iaddr fun img b => img.setAddr ip ndirect b
    deref iaddr
    let addr ← gets fun img => word (img.data iaddr) (n - ndirect)
    ensure addr fun img b => img.setWord iaddr (n - ndirect) b

/-! ## Reading and writing -/

/-- The loop of `iread`, with the bytes read so far. -/
def ireadLoop (ip n : Nat) : Nat → Nat → List UInt8 → FsM (List UInt8)
  | 0, _, _ => stop .spin
  | fuel + 1, off, buf =>
      if buf.length < n then do
        let b ← bmap ip (off / bsize)
        let img ← gets id
        if img.sb.validDataBlock b then
          let m := min (n - buf.length) (bsize - off % bsize)
          let bytes := (List.range m).map fun i => img.data b (off % bsize + i)
          ireadLoop ip n fuel (off + m) (buf ++ bytes)
        else pure buf
      else pure buf

/-- `iread`: the bytes that were read, `none` for `-1`. -/
def iread (ip n off : Nat) : FsM (Option (List UInt8)) := do
  let d ← gets fun img => img.inode ip
  if d.type = .dev then pure none
  else if d.size < off ∨ 2 ^ 32 ≤ off + n then pure none
  else do
    let n := if d.size < off + n then d.size - off else n
    let buf ← ireadLoop ip n (n + 1) off []
    pure (some buf)

/-- `memmove(img[b] + o, buf, ..)`. -/
def Img.write (img : Img) (b o : Nat) (buf : List UInt8) : Img :=
  img.setData b fun x => if o ≤ x ∧ x < o + buf.length then buf.getD (x - o) 0 else img.data b x

/-- The loop of `iwrite`: the bytes left, and how many were written. Returns
that number and the offset reached. -/
def iwriteLoop (ip : Nat) : Nat → List UInt8 → Nat → Nat → FsM (Nat × Nat)
  | 0, _, _, _ => stop .spin
  | fuel + 1, buf, t, off =>
      if buf ≠ [] then do
        let b ← bmap ip (off / bsize)
        let sb ← gets Img.sb
        if sb.validDataBlock b then do
          let m := min buf.length (bsize - off % bsize)
          modify fun img => img.write b (off % bsize) (buf.take m)
          iwriteLoop ip fuel (buf.drop m) (t + m) (off + m)
        else pure (t, off)
      else pure (t, off)

/-- `iwrite`: the number of bytes written, `none` for `-1`. -/
def iwrite (ip : Nat) (buf : List UInt8) (off : Nat) : FsM (Option Nat) := do
  let d ← gets fun img => img.inode ip
  if d.type = .dev then pure none
  else if d.size < off ∨ 2 ^ 32 ≤ off + buf.length ∨ maxFileSize < off + buf.length then pure none
  else do
    let (t, off) ← iwriteLoop ip (buf.length + 1) buf 0 off
    modify fun img =>
      if 0 < t ∧ d.size < off then img.setInode ip fun d => { d with size := off } else img
    pure (some t)

/-- `divceil`. -/
def divceil (x y : Nat) : Nat := if x = 0 then 0 else (x - 1) / y + 1

def freeDirect (ip : Nat) : List Nat → FsM Unit
  | [] => pure ()
  | i :: is => do
      let addr ← gets fun img => (img.inode ip).addrs i
      bfree addr
      modify fun img => img.setAddr ip i 0
      freeDirect ip is

def freeIndirect (iaddr : Nat) : List Nat → FsM Unit
  | [] => pure ()
  | i :: is => do
      let addr ← gets fun img => word (img.data iaddr) i
      bfree addr
      modify fun img => img.setWord iaddr i 0
      freeIndirect iaddr is

/-- The loop of `itruncate` that makes a file longer, with the bytes left. -/
def growLoop (ip : Nat) : Nat → Nat → Nat → FsM Unit
  | 0, _, _ => stop .spin
  | fuel + 1, left, off =>
      if 0 < left then do
        let b ← bmap ip (off / bsize)
        deref b
        let m := min left (bsize - off % bsize)
        modify fun img => img.write b (off % bsize) (List.replicate m 0)
        growLoop ip fuel (left - m) (off + m)
      else pure ()

/-- The part of `itruncate` about the indirect block: of `n` blocks `k` are
kept. -/
def shrinkIndirect (ip n k : Nat) : FsM Unit :=
  if ndirect < n then do
    let iaddr ← gets fun img => (img.inode ip).addrs ndirect
    if iaddr = 0 then stop .assert
    else do
      deref iaddr
      freeIndirect iaddr (List.range' (k - ndirect) (n - ndirect - (k - ndirect)))
      if k - ndirect = 0 then do
        bfree iaddr
        modify fun img => img.setAddr ip ndirect 0
      else pure ()
  else pure ()

/-- The part of `itruncate` that makes a file shorter. -/
def shrink (ip n k : Nat) : FsM Unit := do
  freeDirect ip (List.range' (min k ndirect) (min n ndirect - min k ndirect))
  shrinkIndirect ip n k

/-- `itruncate`. No caller looks at the result. -/
def itruncate (ip size : Nat) : FsM Unit := do
  let d ← gets fun img => img.inode ip
  if d.type = .dev then pure ()
  else if maxFileSize < size then pure ()
  else do
    let _ ← if size < d.size then shrink ip (divceil d.size bsize) (divceil size bsize)
      else growLoop ip (size - d.size + 1) (size - d.size) d.size
    modify fun img => img.setInode ip fun d => { d with size := size }

end Yaos.Fs
