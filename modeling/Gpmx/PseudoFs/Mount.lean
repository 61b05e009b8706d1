import Gpmx.PseudoFs.Refine

/-!
# Mounting

Model of `nx_mount` and `nx_umount2`, with the drivers they look up. The methods of the
filesystems are parameters; which filesystems there are is the configuration.
-/

namespace Gpmx.PseudoFs

open Infra

def EACCES : Int := 13
def ENOTBLK : Int := 15
def ENODEV : Int := 19
def ENOTDIR : Int := 20
def ENOSYS : Int := 88

/-! ## Filesystems -/

/-- The options of the build, `CONFIG_FS_LITTLEFS` and so on. -/
structure Config where
  littlefs : Bool
  mtd : Bool
  cromfs : Bool
  fatfs : Bool

/-- `BDFS_SUPPORT`. `MDFS_SUPPORT` asks for `CONFIG_MTD` besides, so either is this one. -/
def Config.bdfs (cfg : Config) : Bool := cfg.littlefs

def Config.mdfs (cfg : Config) : Bool := cfg.littlefs && cfg.mtd

def Config.nodfs (cfg : Config) : Bool := cfg.cromfs || cfg.fatfs

structure BlockOps where
  read : Bool
  write : Bool

structure MountOps where
  /-- the driver and the mount data, to the return value and the handle -/
  bind : Option (Option Addr → Option Nat → Int × Option Nat)
  /-- the handle and the flags, to the return value and the contained driver -/
  unbind : Option (Option Nat → Nat → Int × Option Addr)

structure Tables where
  bops : Nat → BlockOps
  mops : Nat → MountOps
  littlefsOperations : Nat
  cromfsOperations : Nat
  fatfsOperations : Nat

/-- `g_bdfsmap`; `g_mdfsmap` has the same entry. -/
def gBdfsmap (t : Tables) : List (Name × Nat) :=
  [(['l', 'i', 't', 't', 'l', 'e', 'f', 's'], t.littlefsOperations)]

def gNonbdfsmap (cfg : Config) (t : Tables) : List (Name × Nat) :=
  (if cfg.cromfs then [(['c', 'r', 'o', 'm', 'f', 's'], t.cromfsOperations)] else []) ++
    if cfg.fatfs then [(['v', 'f', 'a', 't'], t.fatfsOperations)] else []

def mountFindfs (fstab : List (Name × Nat)) (filesystemtype : Name) : Option Nat :=
  (fstab.find? fun fsmap => fsmap.1 == filesystemtype).map Prod.snd

/-! ## Drivers -/

/-- Can the inode be accessed as `mountflags` ask, whose bit 0 is `MS_RDONLY`? -/
def Tables.accessible (t : Tables) (node : Inode) (mountflags : Nat) : Bool :=
  match node.u with
  | none => false
  | some bops => (t.bops bops).read && ((t.bops bops).write || mountflags % 2 == 1)

def findBlockdriver (t : Tables) (fs : Fs) (pathname : List Char) (mountflags : Nat) :
    Option (Int × Option Addr × Fs) := do
  let (desc, fs) ← inodeFind fs pathname
  if desc.ret < 0 then some (-ENOENT, none, fs)
  else
    let node ← desc.node
    let c ← fs.heap.read node
    if c.data.iType ≠ .block then
      let fs ← inodeRelease fs node
      some (-ENOTBLK, none, fs)
    else if t.accessible c.data mountflags = false then
      let fs ← inodeRelease fs node
      some (-EACCES, none, fs)
    else some (0, some node, fs)

def findMtddriver (cfg : Config) (fs : Fs) (pathname : List Char) :
    Option (Int × Option Addr × Fs) :=
  if cfg.mtd then do
    let (desc, fs) ← inodeFind fs pathname
    if desc.ret < 0 then some (-ENOENT, none, fs)
    else
      let node ← desc.node
      let c ← fs.heap.read node
      if c.data.iType ≠ .mtd then
        let fs ← inodeRelease fs node
        some (-ENOTBLK, none, fs)
      else some (0, some node, fs)
  else some (-ENODEV, none, fs)

/-! ## `nx_mount` -/

def foundOps (mops : Option Nat) (errno : Int) (drvr : Option Addr) (fs : Fs) :
    Int × Option Nat × Option Addr × Fs :=
  (if mops = none then -errno else 0, mops, drvr, fs)

/-- The first part of `nx_mount`: the filesystem, if there is one, and the driver. -/
def mountFindops (cfg : Config) (t : Tables) (fs : Fs) (source : Option (List Char))
    (filesystemtype : Name) (mountflags : Nat) : Option (Int × Option Nat × Option Addr × Fs) :=
  let nomops := if cfg.nodfs then mountFindfs (gNonbdfsmap cfg t) filesystemtype else none
  match source with
  | none => some (foundOps nomops ENOTBLK none fs)
  | some source => do
    let (ret, drvr, fs) ← findBlockdriver t fs source mountflags
    if ret ≥ 0 then
      let mops := if cfg.bdfs then mountFindfs (gBdfsmap t) filesystemtype else none
      some (foundOps mops ENODEV drvr fs)
    else
      let (ret, drvr, fs) ← findMtddriver cfg fs source
      if ret ≥ 0 then
        let mops := if cfg.mdfs then mountFindfs (gBdfsmap t) filesystemtype else none
        some (foundOps mops ENODEV drvr fs)
      else some (foundOps nomops ENOTBLK none fs)

/-- `inode_release(drvr_inode)`, compiled in with filesystems on drivers only. -/
def releaseDriver (cfg : Config) (fs : Fs) (drvr : Option Addr) : Option Fs :=
  match drvr with
  | some drvr => if cfg.bdfs || cfg.mdfs then inodeRelease fs drvr else some fs
  | none => some fs

/-- The count of the driver, `drvr_inode->i_crefs++` or `--`. Only filesystems without a driver
ask whether there is one. -/
def countDriver (cfg : Config) (fs : Fs) (drvr : Option Addr) (change : Inode → Inode) :
    Option Fs :=
  if cfg.bdfs || cfg.mdfs then
    match drvr with
    | some drvr => fs.onInode drvr change
    | none => if cfg.nodfs then some fs else none
  else some fs

/-- The label `errout_with_mountpt`. -/
def erroutWithMountpt (cfg : Config) (fs : Fs) (target : List Char) (drvr : Option Addr)
    (mountptInode : Addr) (ret : Int) : Option (Int × Fs) := do
  let fs ← inodeRelease fs mountptInode
  let (_, fs) ← inodeRemove fs target
  let fs ← releaseDriver cfg fs drvr
  some (ret, fs)

def Inode.mounted (mops : Nat) (fshandle : Option Nat) (node : Inode) : Inode :=
  { node with iType := .mountpt, u := some mops, iPrivate := fshandle }

/-- The last part of `nx_mount`: bind the driver to the filesystem at `mountptInode`. -/
def mountBind (cfg : Config) (t : Tables) (fs : Fs) (target : List Char) (mops : Nat)
    (drvr : Option Addr) (mountptInode : Addr) (data : Option Nat) : Option (Int × Fs) :=
  match (t.mops mops).bind with
  | none => erroutWithMountpt cfg fs target drvr mountptInode (-EINVAL)
  | some bind => do
    let fs ← countDriver cfg fs drvr Inode.addref
    let (ret, fshandle) := bind (if cfg.bdfs || cfg.mdfs then drvr else none) data
    if ret < 0 then
      let fs ← countDriver cfg fs drvr Inode.dropref
      erroutWithMountpt cfg fs target drvr mountptInode ret
    else
      let fs ← fs.onInode mountptInode (Inode.mounted mops fshandle)
      let fs ← releaseDriver cfg fs drvr
      some (0, fs)

/-- The middle part of `nx_mount`: find the target, or make it, and bind there. -/
def mountTarget (cfg : Config) (t : Tables) (fs : Fs) (target : List Char) (mops : Nat)
    (drvr : Option Addr) (data : Option Nat) (answers : List Addr) : Option (Int × Fs) := do
  let (desc, fs) ← inodeFind fs target
  if desc.ret ≥ 0 then
    let mountptInode ← desc.node
    let c ← fs.heap.read mountptInode
    if c.data.iType ≠ .pseudodir then
      let fs ← inodeRelease fs mountptInode
      let fs ← releaseDriver cfg fs drvr
      some (-ENOTDIR, fs)
    else mountBind cfg t fs target mops drvr mountptInode data
  else
    let (ret, node, fs) ← inodeReserve fs target answers
    if ret < 0 then
      let fs ← releaseDriver cfg fs drvr
      some (ret, fs)
    else
      let mountptInode ← node
      mountBind cfg t fs target mops drvr mountptInode data

def nxMount (cfg : Config) (t : Tables) (fs : Fs) (source : Option (List Char))
    (target : List Char) (filesystemtype : Name) (mountflags : Nat) (data : Option Nat)
    (answers : List Addr) : Option (Int × Fs) :=
  if (cfg.bdfs || cfg.mdfs || cfg.nodfs) = false then some (-ENOSYS, fs)
  else do
    let (ret, mops, drvr, fs) ← mountFindops cfg t fs source filesystemtype mountflags
    match mops with
    | none =>
      let fs ← releaseDriver cfg fs drvr
      some (ret, fs)
    | some mops => mountTarget cfg t fs target mops drvr data answers

/-! ## `nx_umount2` -/

/-- `if (blkdrvr_inode) inode_release(blkdrvr_inode)` -/
def releaseContained (fs : Fs) (blkdrvr : Option Addr) : Option Fs :=
  match blkdrvr with
  | some blkdrvr => inodeRelease fs blkdrvr
  | none => some fs

def Inode.unmounted (node : Inode) : Inode :=
  { node with iType := .pseudodir, u := none, iPrivate := none }

/-- The label `errout_with_mountpt` of `nx_umount2`. -/
def erroutUmount (fs : Fs) (mountptInode : Addr) (blkdrvr : Option Addr) (ret : Int) :
    Option (Int × Fs) := do
  let fs ← inodeRelease fs mountptInode
  let fs ← releaseContained fs blkdrvr
  some (ret, fs)

/-- The part of `nx_umount2` after a successful unbind. -/
def umountUnbound (fs : Fs) (target : List Char) (mountptInode : Addr) (blkdrvr : Option Addr) :
    Option (Int × Fs) := do
  let fs ← fs.onInode mountptInode Inode.unmounted
  let c ← fs.heap.read mountptInode
  if c.child ≠ none then
    let fs ← fs.onInode mountptInode Inode.dropref
    let fs ← releaseContained fs blkdrvr
    some (0, fs)
  else
    let (ret, fs) ← inodeRemove fs target
    if ret ≠ 0 ∧ ret ≠ -EBUSY then erroutUmount fs mountptInode blkdrvr ret
    else
      let fs ← inodeRelease fs mountptInode
      let fs ← releaseContained fs blkdrvr
      some (0, fs)

def nxUmount2 (t : Tables) (fs : Fs) (target : List Char) (flags : Nat) : Option (Int × Fs) := do
  let (desc, fs) ← inodeFind fs target
  if desc.ret < 0 then some (desc.ret, fs)
  else
    let mountptInode ← desc.node
    let c ← fs.heap.read mountptInode
    if c.data.iType ≠ .mountpt then erroutUmount fs mountptInode none (-EINVAL)
    else
      let mops ← c.data.u
      match (t.mops mops).unbind with
      | none => erroutUmount fs mountptInode none (-EINVAL)
      | some unbind =>
        let (ret, blkdrvr) := unbind c.data.iPrivate flags
        if ret < 0 then erroutUmount fs mountptInode blkdrvr ret
        else if ret > 0 then erroutUmount fs mountptInode blkdrvr (-EBUSY)
        else umountUnbound fs target mountptInode blkdrvr

end Gpmx.PseudoFs
