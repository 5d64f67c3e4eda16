import Yaos.Fs.Directory

/-!
# The commands of `opfs` (`tools/opfs.c`)

A command returns `EXIT_SUCCESS` or `EXIT_FAILURE`. What is printed, but for the
file that `get` writes to standard output, and the check of the number of
arguments are left out; so is `diskinfo`, which only reads. The input of `put` is
the list of what the calls of `read` return (`none` for an error); after its end
they return nothing.
-/

namespace Yaos.Fs

open Yaos.Lib Prog

inductive Status where
  | success
  | failure
  deriving DecidableEq

/-- `root_inode`. -/
def root : Nat := 1

/-- `ilookup(img, root_inode, path)`. -/
def lookup (path : Name) : FsM (Option Nat) := ilookup (path.length + 1) root path

/-- `iunlink(img, rp, path)`. -/
def unlinkAt (rp : Nat) (path : Name) : FsM Bool := iunlink (path.length + 1) rp path

/-- `icreat(img, rp, path, type, NULL)`. -/
def creatAt (rp : Nat) (path : Name) (type : FileType) : FsM (Option Nat) :=
  icreat (path.length + 1) rp path type

/-- `do_info`. -/
def doInfo (path : Name) : FsM Status := do
  let ip ← lookup path
  match ip with
  | none => pure .failure
  | some ip => do
      let d ← gets fun img => img.inode ip
      if 0 < d.size ∧ d.addrs ndirect ≠ 0 then do
        deref (d.addrs ndirect)
        pure .success
      else pure .success

/-- The loop of `do_ls`. -/
def lsLoop (dp : Nat) : Nat → Nat → FsM Status
  | 0, _ => stop .spin
  | fuel + 1, off => do
      let img ← gets id
      if off < (img.inode dp).size then do
        let de ← readEntry dp off
        match de with
        | none => pure .failure
        | some de =>
            if de.inum = 0 then lsLoop dp fuel (off + direntSize)
            else
              match img.sb.iget de.inum with
              | none => stop .fault
              | some _ => lsLoop dp fuel (off + direntSize)
      else pure .success

/-- `do_ls`. -/
def doLs (path : Name) : FsM Status := do
  let ip ← lookup path
  match ip with
  | none => pure .failure
  | some ip => do
      let img ← gets id
      if (img.inode ip).type = .dir then lsLoop ip (img.rounds ip) 0 else pure .success

/-- The loop of `do_get`, with the bytes written to standard output so far. -/
def getLoop (ip : Nat) : Nat → Nat → List UInt8 → FsM (Status × List UInt8)
  | 0, _, _ => stop .spin
  | fuel + 1, off, out => do
      let d ← gets fun img => img.inode ip
      if off < d.size then do
        let buf ← iread ip bufSize off
        match buf with
        | none => pure (.failure, out)
        | some buf => getLoop ip fuel (off + bufSize) (out ++ buf)
      else pure (.success, out)

/-- `do_get`, and what it writes to standard output. -/
def doGet (path : Name) : FsM (Status × List UInt8) := do
  let ip ← lookup path
  match ip with
  | none => pure (.failure, [])
  | some ip => do
      let d ← gets fun img => img.inode ip
      getLoop ip (d.size / bufSize + 2) 0 []

/-- The loop of `do_put`. -/
def putLoop (ip : Nat) : List (Option (List UInt8)) → Nat → FsM Status
  | reads, off =>
      if off < maxFileSize then
        match reads with
        | [] => do
            let r ← iwrite ip [] off
            pure (if r = some 0 then .success else .failure)
        | none :: _ => pure .failure
        | some bytes :: reads => do
            let buf := bytes.take bufSize
            let r ← iwrite ip buf off
            if r ≠ some buf.length then pure .failure
            else if buf.length < bufSize then pure .success
            else putLoop ip reads (off + bufSize)
      else pure .success

/-- `do_put`. -/
def doPut (path : Name) (reads : List (Option (List UInt8))) : FsM Status := do
  let ip ← lookup path
  match ip with
  | none => do
      let ip ← creatAt root path .file
      match ip with
      | none => pure .failure
      | some ip => putLoop ip reads 0
  | some ip => do
      let d ← gets fun img => img.inode ip
      if d.type ≠ .file then pure .failure
      else do
        itruncate ip 0
        putLoop ip reads 0

/-- `do_rm`. -/
def doRm (path : Name) : FsM Status := do
  let ip ← lookup path
  match ip with
  | none => pure .failure
  | some ip => do
      let d ← gets fun img => img.inode ip
      if d.type = .dir then pure .failure
      else do
        let ok ← unlinkAt root path
        pure (if ok then .success else .failure)

/-- The loop of `do_cp`. -/
def copyLoop (sip dip : Nat) : Nat → Nat → FsM Status
  | 0, _ => stop .spin
  | fuel + 1, off => do
      let d ← gets fun img => img.inode sip
      if off < d.size then do
        let buf ← iread sip bufSize off
        match buf with
        | none => pure .failure
        | some buf => do
            let r ← iwrite dip buf off
            if r ≠ some buf.length then pure .failure
            else copyLoop sip dip fuel (off + bufSize)
      else pure .success

/-- The destination of `do_cp`: the inode that is written to. There is no branch for
one of type 0, so that it is written to as it is. -/
def copyDest (spath dpath : Name) : FsM (Option Nat) := do
  let dip ← lookup dpath
  match dip with
  | none =>
      if baseName dpath = [] then pure none
      else do
        let ddip ← lookup (dirName dpath)
        match ddip with
        | none => pure none
        | some ddip => do
            let d ← gets fun img => img.inode ddip
            if d.type ≠ .dir then pure none else creatAt ddip (baseName dpath) .file
  | some dip => do
      let d ← gets fun img => img.inode dip
      match d.type with
      | .dir => creatAt dip (baseName spath) .file
      | .file => do
          itruncate dip 0
          pure (some dip)
      | .dev => pure none
      | .free => pure (some dip)

/-- `do_cp`. -/
def doCp (spath dpath : Name) : FsM Status := do
  let sip ← lookup spath
  match sip with
  | none => pure .failure
  | some sip => do
      let d ← gets fun img => img.inode sip
      if d.type ≠ .file then pure .failure
      else do
        let dip ← copyDest spath dpath
        match dip with
        | none => pure .failure
        | some dip => do
            let d ← gets fun img => img.inode sip
            copyLoop sip dip (d.size / bufSize + 2) 0

/-- `if (sip->type == T_DIR) dmkparlink(img, dip, sip);` -/
def reparent (dip sip : Nat) : FsM Status := do
  let d ← gets fun img => img.inode sip
  let _ ← if d.type = .dir then dmkparlink dip sip else pure true
  pure .success

/-- `do_mv` into the directory `dip`. -/
def moveInto (sip dip : Nat) (spath sname : Name) : FsM Status := do
  let found ← dlookup dip sname
  match inodeOf found with
  | none => do
      let _ ← daddent dip sname sip
      let _ ← unlinkAt root spath
      reparent dip sip
  | some ip => do
      let img ← gets id
      match (img.inode ip).type with
      | .dir =>
          if (img.inode sip).type ≠ .dir then pure .failure
          else do
            let empty ← emptydir ip
            if empty then do
              let _ ← unlinkAt dip sname
              let _ ← daddent dip sname sip
              let _ ← unlinkAt root spath
              let _ ← dmkparlink dip sip
              pure .success
            else pure .failure
      | .file =>
          if (img.inode sip).type ≠ .file then pure .failure
          else do
            let _ ← unlinkAt dip sname
            let _ ← daddent dip sname sip
            let _ ← unlinkAt root spath
            pure .success
      | _ => pure .failure

/-- `do_mv` onto the existing file `dpath`. -/
def moveOnto (sip : Nat) (spath dpath : Name) : FsM Status := do
  let d ← gets fun img => img.inode sip
  if d.type ≠ .file then pure .failure
  else do
    let _ ← unlinkAt root dpath
    let ip ← lookup (dirName dpath)
    match ip with
    | none => stop .assert
    | some ip => do
        assertDir ip
        let _ ← daddent ip (baseName dpath) sip
        let _ ← unlinkAt root spath
        pure .success

/-- `do_mv` to a name that does not exist. -/
def moveTo (sip : Nat) (spath dpath : Name) : FsM Status :=
  if baseName dpath = [] then pure .failure
  else do
    let ip ← lookup (dirName dpath)
    match ip with
    | none => pure .failure
    | some ip => do
        let d ← gets fun img => img.inode ip
        if d.type ≠ .dir then pure .failure
        else do
          let _ ← daddent ip (baseName dpath) sip
          let _ ← unlinkAt root spath
          reparent ip sip

/-- `do_mv`. -/
def doMv (spath dpath : Name) : FsM Status := do
  let sip ← lookup spath
  match sip with
  | none => pure .failure
  | some sip =>
      if sip = root then pure .failure
      else do
        let dip ← lookup dpath
        match dip with
        | none => moveTo sip spath dpath
        | some dip => do
            let d ← gets fun img => img.inode dip
            match d.type with
            | .dir => moveInto sip dip spath (baseName spath)
            | .file => moveOnto sip spath dpath
            | _ => pure .failure

/-- The end of `do_ln`. -/
def link (dip : Nat) (dname : Name) (sip : Nat) : FsM Status := do
  let ok ← daddent dip dname sip
  pure (if ok then .success else .failure)

/-- `do_ln` in the directory `dip`. -/
def linkIn (sip dip : Nat) (spath dname : Name) : FsM Status :=
  if dname = [] then do
    let found ← dlookup dip (baseName spath)
    match inodeOf found with
    | some _ => pure .failure
    | none => link dip (baseName spath) sip
  else do
    let found ← dlookup dip dname
    match inodeOf found with
    | none => link dip dname sip
    | some ip => do
        let d ← gets fun img => img.inode ip
        -- the name is not looked up in the directory that was found
        if d.type ≠ .dir then pure .failure else link ip (baseName spath) sip

/-- `do_ln`. -/
def doLn (spath dpath : Name) : FsM Status := do
  let sip ← lookup spath
  match sip with
  | none => pure .failure
  | some sip => do
      let d ← gets fun img => img.inode sip
      if d.type ≠ .file then pure .failure
      else do
        let dip ← lookup (dirName dpath)
        match dip with
        | none => pure .failure
        | some dip => do
            let d ← gets fun img => img.inode dip
            if d.type ≠ .dir then pure .failure else linkIn sip dip spath (baseName dpath)

/-- `do_mkdir`. -/
def doMkdir (path : Name) : FsM Status := do
  let ip ← lookup path
  match ip with
  | some _ => pure .failure
  | none => do
      let ip ← creatAt root path .dir
      pure (if ip = none then .failure else .success)

/-- `do_rmdir`. -/
def doRmdir (path : Name) : FsM Status := do
  let ip ← lookup path
  match ip with
  | none => pure .failure
  | some ip => do
      let d ← gets fun img => img.inode ip
      if d.type ≠ .dir then pure .failure
      else do
        let empty ← emptydir ip
        if empty then do
          let ok ← unlinkAt root path
          pure (if ok then .success else .failure)
        else pure .failure

inductive Cmd where
  | info (path : Name)
  | ls (path : Name)
  | get (path : Name)
  | put (path : Name) (reads : List (Option (List UInt8)))
  | rm (path : Name)
  | cp (spath dpath : Name)
  | mv (spath dpath : Name)
  | ln (spath dpath : Name)
  | mkdir (path : Name)
  | rmdir (path : Name)

/-- `exec_cmd`. -/
def exec : Cmd → FsM Status
  | .info path => doInfo path
  | .ls path => doLs path
  | .get path => do
      let (st, _) ← doGet path
      pure st
  | .put path reads => doPut path reads
  | .rm path => doRm path
  | .cp spath dpath => doCp spath dpath
  | .mv spath dpath => doMv spath dpath
  | .ln spath dpath => doLn spath dpath
  | .mkdir path => doMkdir path
  | .rmdir path => doRmdir path

/-- What `main` returns: a command that stops has failed. -/
def status (c : Cmd) (img : Img) : Status :=
  match (exec c img).1 with
  | .ok st => st
  | .error _ => .failure

end Yaos.Fs
