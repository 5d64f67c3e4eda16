import Yaos.Fs.Image

/-!
# File system images (`tools/libfs.c`): directories and paths

Strings are the bytes before the terminating zero. `strncmp` with `DIRSIZ`
compares their first 14 bytes, and `strncpy` into an entry pads with zeros.
-/

namespace Yaos.Fs

open Yaos.Lib Prog

abbrev Name := List UInt8

/-- `DIRSIZ`. -/
def dirsiz : Nat := 14

/-- `sizeof(struct dirent)`. -/
def direntSize : Nat := 16

/-- `"."`. -/
def dot : Name := [46]

/-- `".."`. -/
def dotdot : Name := [46, 46]

/-- `strncmp(a, b, DIRSIZ) == 0`. -/
def sameName (a b : Name) : Bool := a.take dirsiz = b.take dirsiz

/-! ## Paths -/

/-- `is_sep`. -/
def isSep (c : UInt8) : Bool := c = 47

/-- `skipelem`: the next element of the path and what follows it. -/
def skipelem (path : Name) : Name × Name :=
  let path := path.dropWhile isSep
  ((path.takeWhile fun c => !isSep c).take dirsiz, path.dropWhile fun c => !isSep c)

/-- The loop of `splitpath`: the last element met so far. -/
def splitLoop : Nat → Name → Name → Name
  | 0, s, _ => s
  | fuel + 1, s, path =>
      if path = [] then s
      else
        let s := path.dropWhile isSep
        splitLoop fuel s (s.dropWhile fun c => !isSep c)

/-- What `splitpath` returns. -/
def baseName (path : Name) : Name := splitLoop path.length path path

/-- `BUFSIZE`. -/
def bufSize : Nat := 1024

/-- What `splitpath` stores in `dirbuf`, a buffer of `BUFSIZE` bytes. -/
def dirName (path : Name) : Name := path.take (min (path.length - (baseName path).length) (bufSize - 1))

/-! ## Entries -/

/-- `struct dirent`. -/
structure Dirent where
  inum : Nat
  name : Name
  deriving DecidableEq

def Dirent.ofBytes (l : List UInt8) : Dirent :=
  ⟨(l.getD 0 0).toNat + 256 * (l.getD 1 0).toNat, ((l.drop 2).take dirsiz).takeWhile (· ≠ 0)⟩

/-- An entry as it is written. `inum` is a `ushort`. -/
def Dirent.toBytes (d : Dirent) : List UInt8 :=
  UInt8.ofNat d.inum :: UInt8.ofNat (d.inum / 256) ::
    (d.name.take dirsiz ++ List.replicate (dirsiz - (d.name.take dirsiz).length) 0)

/-- `iread(img, dp, &de, sizeof(de), off)`: `none` unless all of it was read. -/
def readEntry (dp off : Nat) : FsM (Option Dirent) := do
  let r ← iread dp direntSize off
  match r with
  | none => pure none
  | some buf => if buf.length = direntSize then pure (some (.ofBytes buf)) else pure none

/-- `assert(rp->type == T_DIR)`. -/
def assertDir (ip : Nat) : FsM Unit := do
  let d ← gets fun img => img.inode ip
  if d.type = .dir then pure () else stop .assert

/-- The loop of `dlookup`. -/
def dlookupLoop (dp : Nat) (name : Name) : Nat → Nat → FsM (Option (Option Nat × Nat))
  | 0, _ => stop .spin
  | fuel + 1, off => do
      let img ← gets id
      if off < (img.inode dp).size then do
        let de ← readEntry dp off
        match de with
        | none => pure none
        | some de =>
            if sameName name de.name then pure (some (img.sb.iget de.inum, off))
            else dlookupLoop dp name fuel (off + direntSize)
      else pure none

/-- Rounds enough for a loop over the entries of a directory. -/
def Img.rounds (img : Img) (dp : Nat) : Nat := (img.inode dp).size / direntSize + 2

/-- `dlookup`: `none` if no entry has the name, else the inode and the offset
of the entry. The inode is `NULL` if its number is none. -/
def dlookup (dp : Nat) (name : Name) : FsM (Option (Option Nat × Nat)) := do
  assertDir dp
  let rounds ← gets fun img => img.rounds dp
  dlookupLoop dp name rounds 0

/-- The loop of `daddent`: where the new entry goes. It ends at the first
entry that is not in use. -/
def freeSlot (dp : Nat) (name : Name) : Nat → Nat → FsM (Option Nat)
  | 0, _ => stop .spin
  | fuel + 1, off => do
      let d ← gets fun img => img.inode dp
      if off < d.size then do
        let de ← readEntry dp off
        match de with
        | none => pure none
        | some de =>
            if de.inum = 0 then pure (some off)
            else if sameName de.name name then pure none
            else freeSlot dp name fuel (off + direntSize)
      else pure (some off)

/-- `ip->nlink++`, a `ushort`. -/
def Img.incLink (img : Img) (ip : Nat) : Img :=
  img.setInode ip fun d => { d with nlink := (d.nlink + 1) % 2 ^ 16 }

/-- `ip->nlink--`. -/
def Img.decLink (img : Img) (ip : Nat) : Img :=
  img.setInode ip fun d => { d with nlink := (d.nlink + (2 ^ 16 - 1)) % 2 ^ 16 }

/-- `daddent`: whether it returned `0`. -/
def daddent (dp : Nat) (name : Name) (ip : Nat) : FsM Bool := do
  let rounds ← gets fun img => img.rounds dp
  let slot ← freeSlot dp name rounds 0
  match slot with
  | none => pure false
  | some off => do
      let r ← iwrite dp (Dirent.toBytes ⟨ip, name⟩) off
      if r = some direntSize then do
        modify fun img => if sameName name dot then img else img.incLink ip
        pure true
      else pure false

/-- `dmkparlink`. If the directory has no `..` the offset is not defined. -/
def dmkparlink (pip cip : Nat) : FsM Bool := do
  let img ← gets id
  if (img.inode pip).type ≠ .dir then pure false
  else if (img.inode cip).type ≠ .dir then pure false
  else do
    let found ← dlookup cip dotdot
    match found with
    | none => stop .fault
    | some (_, off) => do
        let r ← iwrite cip (Dirent.toBytes ⟨pip, dotdot⟩) off
        if r = some direntSize then do
          modify fun img => img.incLink pip
          pure true
        else pure false

/-- The inode that `dlookup` returns. -/
def inodeOf (found : Option (Option Nat × Nat)) : Option Nat := found.bind Prod.fst

/-- `ilookup`. -/
def ilookup : Nat → Nat → Name → FsM (Option Nat)
  | 0, _, _ => stop .spin
  | fuel + 1, rp, path => do
      assertDir rp
      let (name, rest) := skipelem path
      if name = [] then pure (some rp)
      else do
        let found ← dlookup rp name
        match inodeOf found with
        | none => pure none
        | some ip =>
            if rest = [] then pure (some ip)
            else do
              let d ← gets fun img => img.inode ip
              if d.type ≠ .dir then pure none else ilookup fuel ip rest

/-- The new file of `icreat`, in the directory `rp`. -/
def create (rp : Nat) (name : Name) (type : FileType) : FsM Nat := do
  let ip ← ialloc type
  let _ ← daddent rp name ip
  let _ ← if type = .dir then do
      let _ ← daddent ip dot ip
      daddent ip dotdot rp
    else pure true
  pure ip

/-- `icreat`, with `dpp` 0. -/
def icreat : Nat → Nat → Name → FileType → FsM (Option Nat)
  | 0, _, _, _ => stop .spin
  | fuel + 1, rp, path, type => do
      assertDir rp
      let (name, rest) := skipelem path
      if name = [] then pure none
      else do
        let found ← dlookup rp name
        match inodeOf found with
        | none =>
            if rest = [] then do
              let ip ← create rp name type
              pure (some ip)
            else pure none
        | some ip =>
            if rest = [] then pure none
            else do
              let d ← gets fun img => img.inode ip
              if d.type ≠ .dir then pure none else icreat fuel ip rest type

/-- The loop of `emptydir`. A directory whose last entry is cut off (the read
would leave the entry of the round before) is not modelled. -/
def countEntries (dp : Nat) : Nat → Nat → Nat → FsM Nat
  | 0, _, _ => stop .spin
  | fuel + 1, off, nent => do
      let d ← gets fun img => img.inode dp
      if off < d.size then do
        let de ← readEntry dp off
        match de with
        | none => stop .fault
        | some de => countEntries dp fuel (off + direntSize) (if de.inum ≠ 0 then nent + 1 else nent)
      else pure nent

/-- `emptydir`. -/
def emptydir (dp : Nat) : FsM Bool := do
  let rounds ← gets fun img => img.rounds dp
  let nent ← countEntries dp rounds 0 0
  pure (nent = 2)

/-- The end of `iunlink`: a link less, and the file goes with the last one. -/
def dropLink (rp ip : Nat) : FsM Unit := do
  let d ← gets fun img => img.inode ip
  let up ← if d.type = .dir then do
      let found ← dlookup ip dotdot
      pure (inodeOf found = some rp : Bool)
    else pure false
  modify fun img => if up then img.decLink rp else img
  modify fun img => img.decLink ip
  let d ← gets fun img => img.inode ip
  if d.nlink = 0 then do
    let _ ← if d.type ≠ .dev then itruncate ip 0 else pure ()
    ifree ip
  else pure ()

/-- The last element of the path of `iunlink`: the entry at `off`. -/
def unlinkEntry (rp ip : Nat) (name : Name) (off : Nat) : FsM Bool :=
  if sameName name dot ∨ sameName name dotdot then pure false
  else do
    let r ← iwrite rp (List.replicate direntSize 0) off
    if r = some direntSize then do
      dropLink rp ip
      pure true
    else pure false

/-- `iunlink`: whether it returned `0`. -/
def iunlink : Nat → Nat → Name → FsM Bool
  | 0, _, _ => stop .spin
  | fuel + 1, rp, path => do
      assertDir rp
      let (name, rest) := skipelem path
      if name = [] then pure false
      else do
        let found ← dlookup rp name
        match found with
        | none => pure false
        | some (none, _) => pure false
        | some (some ip, off) =>
            if rest = [] then unlinkEntry rp ip name off
            else do
              let d ← gets fun img => img.inode ip
              if d.type ≠ .dir then pure false else iunlink fuel ip rest

end Yaos.Fs
