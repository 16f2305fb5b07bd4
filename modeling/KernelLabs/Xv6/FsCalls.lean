import KernelLabs.Xv6.Fs

/-!
Directories, path names and the file system calls (assignment-3 `fs.c`, `sysfile.c`), and
the runs of completed calls. A process names an open file or its current directory by
the cache entry it holds a reference to.
-/
namespace Xv6Fs
open Bytes Transition

section Directories
variable (sb : Superblock)

/-- `sizeof(struct dirent)`. -/
def DIRENT : Nat := 2 + DIRSIZ

structure Dirent where
  inum : Nat
  name : Bytes
  deriving DecidableEq

def Dirent.read (bytes : Bytes) : Dirent := ⟨field (fun j => bytes.getD j 0#8) 0 2, bytes.drop 2⟩

/-- The bytes of an entry, its name copied by `strncpy`. -/
def Dirent.bytes (de : Dirent) (j : Nat) : BitVec 8 :=
  if j < 2 then byteOf de.inum j else de.name.getD (j - 2) 0#8

/-- `namecmp(s, t) == 0`: both agree up to a NUL or for `DIRSIZ` characters. -/
def namecmp (s t : Bytes) : Bool :=
  (s.take DIRSIZ).takeWhile (· != 0#8) == (t.take DIRSIZ).takeWhile (· != 0#8)

/-- The entry at offset `DIRENT * i`, with the panic of the caller. -/
def readDirent (k : Slot) (i : Nat) (panic : Panic) : FsM Dirent := do
  match ← readi sb k (UInt32.ofNat (DIRENT * i)) (UInt32.ofNat DIRENT) with
  | some bytes => if bytes.length = DIRENT then return Dirent.read bytes else throw panic
  | none => throw panic

/-- The number of turns of a loop over the entries of a directory. -/
def direntCount (d : Dinode) : Nat := (d.size.toNat + DIRENT - 1) / DIRENT

def lookupLoop (dp : Slot) (name : Bytes) : List Nat → FsM (Option (Slot × Nat))
  | [] => return none
  | i :: rest => do
    let de ← readDirent sb dp i .dirlookupRead
    if de.inum = 0 then lookupLoop dp name rest
    else if namecmp name de.name then do
      let k ← iget de.inum
      return some (k, i)
    else lookupLoop dp name rest

def dirlookup (dp : Slot) (name : Bytes) : FsM (Option (Slot × Nat)) := do
  let s ← get
  let d := (s.icache dp).d
  if d.type ≠ T_DIR then throw .dirlookupNotDir
  else lookupLoop sb dp name (List.range (direntCount d))

/-- The loop of `dirlink` that looks for an unused entry. -/
def emptyLoop (dp : Slot) (last : Nat) : List Nat → FsM Nat
  | [] => return last
  | i :: rest => do
    let de ← readDirent sb dp i .dirlinkRead
    if de.inum = 0 then return i else emptyLoop dp last rest

def writeDirent (dp : Slot) (i : Nat) (de : Dirent) (panic : Panic) : FsM Unit := do
  let n ← writei sb dp de.bytes (UInt32.ofNat (DIRENT * i)) (UInt32.ofNat DIRENT)
  if n = some (UInt32.ofNat DIRENT) then return () else throw panic

/-- The result tells whether the entry was made. -/
def dirlink (dp : Slot) (name : Bytes) (inum : Nat) : FsM Bool := do
  match ← dirlookup sb dp name with
  | some (k, _) => do
    iput sb k
    return false
  | none => do
    let s ← get
    let count := direntCount (s.icache dp).d
    let i ← emptyLoop sb dp count (List.range count)
    writeDirent sb dp i ⟨inum, name⟩ .dirlink
    return true

def isdiremptyLoop (dp : Slot) : List Nat → FsM Bool
  | [] => return true
  | i :: rest => do
    let de ← readDirent sb dp i .isdiremptyReadi
    if de.inum ≠ 0 then return false else isdiremptyLoop dp rest

def isdirempty (dp : Slot) : FsM Bool := do
  let s ← get
  isdiremptyLoop sb dp ((List.range (direntCount (s.icache dp).d)).drop 2)

end Directories

section Paths
variable (sb : Superblock)

def slash : BitVec 8 := 47#8

def skipelem (path : Bytes) : Option (Bytes × Bytes) :=
  match path.dropWhile (· == slash) with
  | [] => none
  | c :: rest =>
    let elem := (c :: rest).takeWhile (· != slash)
    some (elem.take DIRSIZ, ((c :: rest).dropWhile (· != slash)).dropWhile (· == slash))

/-- The loop of `namex`; every turn takes a character off the path at least. -/
def namexLoop (nameiparent : Bool) : Nat → Slot → Bytes → FsM (Option (Slot × Bytes))
  | 0, _, _ => return none
  | fuel + 1, ip, path =>
    match skipelem path with
    | none =>
      if nameiparent then do
        iput sb ip
        return none
      else return some (ip, [])
    | some (name, rest) => do
      ilock sb ip
      let s ← get
      if (s.icache ip).d.type ≠ T_DIR then do
        iunlockput sb ip
        return none
      else if nameiparent = true ∧ rest = [] then do
        iunlock ip
        return some (ip, name)
      else do
        match ← dirlookup sb ip name with
        | none => do
          iunlockput sb ip
          return none
        | some (next, _) => do
          iunlockput sb ip
          namexLoop nameiparent fuel next rest

def namex (cwd : Slot) (path : Bytes) (nameiparent : Bool) : FsM (Option (Slot × Bytes)) := do
  let ip ← if path.head? = some slash then iget ROOTINO else idup cwd
  namexLoop sb nameiparent (path.length + 1) ip path

end Paths

section Calls
variable (sb : Superblock)

/-- The part of `create` after the name was not found: a locked `ip` results. -/
def createNew (dp : Slot) (name : Bytes) (type major minor : UInt16) : FsM Slot := do
  let ip ← ialloc sb type
  ilock sb ip
  setDinode ip fun d => { d with major := major, minor := minor, nlink := 1 }
  iupdate sb ip
  if type = T_DIR then do
    setDinode dp fun d => { d with nlink := d.nlink + 1 }
    iupdate sb dp
    let s ← get
    let one ← dirlink sb ip [46#8] (s.icache ip).inum
    if one = false then throw .createDots
    else do
      let two ← dirlink sb ip [46#8, 46#8] (s.icache dp).inum
      if two = false then throw .createDots else pure ()
  else pure ()
  let s ← get
  let linked ← dirlink sb dp name (s.icache ip).inum
  if linked = false then throw .createDirlink
  else do
    iunlockput sb dp
    return ip

def create (cwd : Slot) (path : Bytes) (type major minor : UInt16) : FsM (Option Slot) := do
  match ← namex sb cwd path true with
  | none => return none
  | some (dp, name) => do
    ilock sb dp
    match ← dirlookup sb dp name with
    | some (ip, _) => do
      iunlockput sb dp
      ilock sb ip
      let s ← get
      if type = T_FILE ∧ (s.icache ip).d.type = T_FILE then return some ip
      else do
        iunlockput sb ip
        return none
    | none => do
      let ip ← createNew sb dp name type major minor
      return some ip

/-- `mkdir`, `mknod`, and `open` with `O_CREATE`, which keeps the reference. -/
def sysCreate (cwd : Slot) (path : Bytes) (type major minor : UInt16) (keep : Bool) :
    FsM (Option Slot) := do
  match ← create sb cwd path type major minor with
  | none => return none
  | some ip => do
    if keep then do
      iunlock ip
      return some ip
    else do
      iunlockput sb ip
      return none

/-- `open` without `O_CREATE`, and `chdir` up to the release of the old directory. -/
def sysOpen (cwd : Slot) (path : Bytes) (dirOk fileOk : Bool) : FsM (Option Slot) := do
  match ← namex sb cwd path false with
  | none => return none
  | some (ip, _) => do
    ilock sb ip
    let s ← get
    if (if (s.icache ip).d.type = T_DIR then dirOk else fileOk) then do
      iunlock ip
      return some ip
    else do
      iunlockput sb ip
      return none

def setNlink (k : Slot) (f : UInt16 → UInt16) : FsM Unit := do
  setDinode k fun d => { d with nlink := f d.nlink }
  iupdate sb k

/-- `bad:` of `sys_link`. -/
def unlinkBack (ip : Slot) : FsM Bool := do
  ilock sb ip
  setNlink sb ip (· - 1)
  iunlockput sb ip
  return false

def sysLink (cwd : Slot) (old new : Bytes) : FsM Bool := do
  match ← namex sb cwd old false with
  | none => return false
  | some (ip, _) => do
    ilock sb ip
    let s ← get
    if (s.icache ip).d.type = T_DIR then do
      iunlockput sb ip
      return false
    else do
      setNlink sb ip (· + 1)
      iunlock ip
      match ← namex sb cwd new true with
      | none => unlinkBack sb ip
      | some (dp, name) => do
        ilock sb dp
        let linked ← dirlink sb dp name (s.icache ip).inum
        iunlockput sb dp
        if linked then do
          iput sb ip
          return true
        else unlinkBack sb ip

def short (n : UInt16) : Int := (n.toNat : Int).bmod (2 ^ 16)

/-- `ip->type != T_DIR || isdirempty(ip)`. -/
def emptyOrFile (ip : Slot) (type : UInt16) : FsM Bool :=
  if type = T_DIR then isdirempty sb ip else return true

def sysUnlink (cwd : Slot) (path : Bytes) : FsM Bool := do
  match ← namex sb cwd path true with
  | none => return false
  | some (dp, name) => do
    ilock sb dp
    if namecmp name [46#8] ∨ namecmp name [46#8, 46#8] then do
      iunlockput sb dp
      return false
    else
      match ← dirlookup sb dp name with
      | none => do
        iunlockput sb dp
        return false
      | some (ip, i) => do
        ilock sb ip
        let s ← get
        let d := (s.icache ip).d
        if short d.nlink < 1 then throw .unlinkNlink
        else do
          let empty ← emptyOrFile sb ip d.type
          if empty = false then do
            iunlockput sb ip
            iunlockput sb dp
            return false
          else do
            writeDirent sb dp i ⟨0, []⟩ .unlinkWritei
            if d.type = T_DIR then setNlink sb dp (· - 1) else pure ()
            iunlockput sb dp
            setNlink sb ip (· - 1)
            iunlockput sb ip
            return true

/-- `fileread` and `filewrite` of one transaction. -/
def fileRead (k : Slot) (off n : UInt32) : FsM Unit := do
  ilock sb k
  let _ ← readi sb k off n
  iunlock k

def fileWrite (k : Slot) (src : Nat → BitVec 8) (off n : UInt32) : FsM Unit := do
  ilock sb k
  let _ ← writei sb k src off n
  iunlock k

/-- A call with the cache entries it starts from. -/
inductive Call where
  | create (cwd : Slot) (path : Bytes) (type major minor : UInt16) (keep : Bool)
  | open (cwd : Slot) (path : Bytes) (dirOk fileOk : Bool)
  | link (cwd : Slot) (old new : Bytes)
  | unlink (cwd : Slot) (path : Bytes)
  | read (k : Slot) (off n : UInt32)
  | write (k : Slot) (src : Nat → BitVec 8) (off n : UInt32)
  | dup (k : Slot)
  | close (k : Slot)

def Call.entry : Call → Slot
  | .create cwd _ _ _ _ _ => cwd
  | .open cwd _ _ _ => cwd
  | .link cwd _ _ => cwd
  | .unlink cwd _ => cwd
  | .read k _ _ => k
  | .write k _ _ _ => k
  | .dup k => k
  | .close k => k

/-- `create` is called with these types. No directory is open for writing. -/
def Call.wellTyped (s : Fs) : Call → Bool
  | .create _ _ type _ _ _ => type == T_DIR || type == T_FILE || type == T_DEV
  | .write k _ _ _ => (s.icache k).valid && (s.icache k).d.type != T_DIR
  | _ => true

def Call.run : Call → FsM Unit
  | .create cwd path type major minor keep => do
    let _ ← sysCreate sb cwd path type major minor keep
  | .open cwd path dirOk fileOk => do
    let _ ← sysOpen sb cwd path dirOk fileOk
  | .link cwd old new => do
    let _ ← sysLink sb cwd old new
  | .unlink cwd path => do
    let _ ← sysUnlink sb cwd path
  | .read k off n => fileRead sb k off n
  | .write k src off n => fileWrite sb k src off n
  | .dup k => do
    let _ ← idup k
  | .close k => iput sb k

/-- A completed call; a call that panics or hangs has no successor. -/
def next (s : Fs) (call : Call) : Option Fs :=
  if 0 < (s.icache call.entry).ref ∧ call.wellTyped s = true then
    match call.run sb s with
    | .ok (_, t) => some t
    | .error _ => none
  else none

end Calls
end Xv6Fs
