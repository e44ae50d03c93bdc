import Xv6.Mem.Kalloc
import Xv6.Lib.Halting
import Xv6.Fs.BeginOp
import Xv6.Fs.Layout

/-!
# Blocks and inode contents

`balloc`, `bfree`, `bmap`, `itrunc`, `readi`, `writei` and the directory scans of
`fs.c` over the blocks of the disk as an operation sees them through the buffer cache.
The functions take and return the in-memory inode, whose addresses reach the disk
only through `iupdate`, and collect the blocks passed to `log_write`.
-/

set_option autoImplicit false

namespace Xv6.Fs
open Xv6.Fields Xv6.Kalloc

structure Store where
  disk : Disk
  log : List ℕ

/-- The store into a buffer together with its `log_write`. -/
def Store.logWrite (s : Store) (b : ℕ) (p : Block) : Store where
  disk := Function.update s.disk b p
  log := LogOps.absorb s.log b

def bzero (s : Store) (b : ℕ) : Store := s.logWrite b (fun _ => 0)

def Inode.addr (ip : Inode) (r : Fin (NDIRECT+1)) : ℕ := (ip.addrs r).toNat

def Inode.setAddr (ip : Inode) (r : Fin (NDIRECT+1)) (b : ℕ) : Inode :=
  { ip with addrs := Function.update ip.addrs r (.ofNat b) }

/-- The slot of the indirect block, `addrs[NDIRECT]`. -/
def indirect : Fin (NDIRECT+1) := Fin.last NDIRECT

section
variable (sb : Super)

/-- The two loops of `balloc` visit the block numbers below `sb.size` in order. -/
def balloc (s : Store) : Except Halt (Store × ℕ) :=
  match (List.range sb.size).find? (fun b => !marked sb s.disk b) with
  | none => .error (.panic "balloc: out of blocks")
  | some b =>
    .ok (bzero (s.logWrite (sb.bblock b) (setBit (s.disk (sb.bblock b)) (b%BPB))) b, b)

def bfree (s : Store) (b : ℕ) : Except Halt Store :=
  if marked sb s.disk b then
    .ok (s.logWrite (sb.bblock b) (clearBit (s.disk (sb.bblock b)) (b%BPB)))
  else .error (.panic "freeing free block")

def iupdate (s : Store) (inum : ℕ) (ip : Inode) : Store :=
  s.logWrite (sb.iblock inum) (ip.store (s.disk (sb.iblock inum)) (inum%IPB*dinodeSize))

/-- `if((addr = ip->addrs[r]) == 0) ip->addrs[r] = addr = balloc(ip->dev)`. -/
def ensureAddr (s : Store) (ip : Inode) (r : Fin (NDIRECT+1)) : Except Halt (Store × Inode) :=
  if ip.addr r = 0 then do
    let (s, b) ← balloc sb s
    .ok (s, ip.setAddr r b)
  else .ok (s, ip)

def bmap (s : Store) (ip : Inode) (bn : ℕ) : Except Halt (Store × Inode × ℕ) :=
  if h : bn < NDIRECT then do
    let (s, ip) ← ensureAddr sb s ip ⟨bn,by omega⟩
    .ok (s, ip, ip.addr ⟨bn,by omega⟩)
  else if bn-NDIRECT < NINDIRECT then do
    let (s, ip) ← ensureAddr sb s ip indirect
    let a := ip.addr indirect
    if word (s.disk a) (bn-NDIRECT) = 0 then do
      let (s, b) ← balloc sb s
      .ok (s.logWrite a (setWord (s.disk a) (bn-NDIRECT) b), ip, b)
    else .ok (s, ip, word (s.disk a) (bn-NDIRECT))
  else .error (.panic "bmap: out of range")

/-- The first loop of `itrunc`. -/
def freeAddrs : List (Fin (NDIRECT+1)) → Store → Inode → Except Halt (Store × Inode)
  | [], s, ip => .ok (s, ip)
  | r::rs, s, ip =>
    if ip.addr r = 0 then freeAddrs rs s ip
    else do
      let s ← bfree sb s (ip.addr r)
      freeAddrs rs s (ip.setAddr r 0)

/-- The second loop of `itrunc`, over the words of the indirect block. -/
def freeWords (a : Block) : List ℕ → Store → Except Halt Store
  | [], s => .ok s
  | j::js, s =>
    if word a j = 0 then freeWords a js s
    else do
      let s ← bfree sb s (word a j)
      freeWords a js s

def freeIndirect (s : Store) (ip : Inode) : Except Halt (Store × Inode) :=
  if ip.addr indirect = 0 then .ok (s, ip)
  else do
    let s ← freeWords sb (s.disk (ip.addr indirect)) (List.range NINDIRECT) s
    let s ← bfree sb s (ip.addr indirect)
    .ok (s, ip.setAddr indirect 0)

def directs : List (Fin (NDIRECT+1)) := (List.finRange NDIRECT).map Fin.castSucc

def itrunc (s : Store) (inum : ℕ) (ip : Inode) : Except Halt (Store × Inode) := do
  let (s, ip) ← freeAddrs sb directs s ip
  let (s, ip) ← freeIndirect sb s ip
  .ok (iupdate sb s inum { ip with size := 0 }, { ip with size := 0 })

/-- The major number whose driver is installed in `devsw`. -/
def CONSOLE : UInt16 := 1

/-- What `readi` and `writei` come to: -1, a transfer, or the driver of the console,
which does not touch the disk. -/
inductive Io (α : Type) where
  | fail
  | done (a : α)
  | console

/-- The loop of `readi` with `n` bytes to go; every pass moves at least one byte. -/
def readLoop : ℕ → Store → Inode → ℕ → ℕ → Except Halt (Store × Inode × List UInt8)
  | 0, s, ip, _, _ => .ok (s, ip, [])
  | fuel+1, s, ip, off, n =>
    if n = 0 then .ok (s, ip, [])
    else do
      let (s, ip, b) ← bmap sb s ip (off/BSIZE)
      let m := min n (BSIZE-off%BSIZE)
      let (s', ip, rest) ← readLoop fuel s ip (off+m) (n-m)
      .ok (s', ip, (List.range m).map (fun k => s.disk b (off%BSIZE+k)) ++ rest)

def readi (s : Store) (ip : Inode) (off n : ℕ) :
    Except Halt (Store × Inode × Io (List UInt8)) :=
  if ip.type = T_DEV then
    .ok (s, ip, if ip.major = CONSOLE then .console else .fail)
  else if ip.size.toNat < off ∨ (off+n)%2^32 < off then .ok (s, ip, .fail)
  else do
    let n := if ip.size.toNat < (off+n)%2^32 then ip.size.toNat-off else n
    let (s, ip, bytes) ← readLoop sb n s ip off n
    .ok (s, ip, .done bytes)

/-- The loop of `writei`; it returns the offset it has reached. -/
def writeLoop : ℕ → Store → Inode → ℕ → List UInt8 → Except Halt (Store × Inode × ℕ)
  | 0, s, ip, off, _ => .ok (s, ip, off)
  | fuel+1, s, ip, off, src =>
    if src = [] then .ok (s, ip, off)
    else do
      let (s, ip, b) ← bmap sb s ip (off/BSIZE)
      let m := min src.length (BSIZE-off%BSIZE)
      writeLoop fuel (s.logWrite b (writeBytes (s.disk b) (off%BSIZE) (src.take m))) ip
        (off+m) (src.drop m)

def writei (s : Store) (inum : ℕ) (ip : Inode) (src : List UInt8) (off : ℕ) :
    Except Halt (Store × Inode × Io ℕ) :=
  let n := src.length
  if ip.type = T_DEV then
    .ok (s, ip, if ip.major = CONSOLE then .console else .fail)
  else if ip.size.toNat < off ∨ (off+n)%2^32 < off then .ok (s, ip, .fail)
  else if MAXFILE*BSIZE < (off+n)%2^32 then .ok (s, ip, .fail)
  else do
    let (s, ip, off) ← writeLoop sb n s ip off src
    if 0 < n ∧ ip.size.toNat < off then
      let ip := { ip with size := .ofNat off }
      .ok (iupdate sb s inum ip, ip, .done n)
    else .ok (s, ip, .done n)

/-! ### Directories -/

def DIRSIZ : ℕ := 14
/-- `sizeof(struct dirent)`. -/
def direntSize : ℕ := 2+DIRSIZ

/-- The part of a name that `strncmp` and `strncpy` look at. -/
def shorten (name : List UInt8) : List UInt8 := (name.take DIRSIZ).takeWhile (· != 0)

def namecmp (s t : List UInt8) : Bool := shorten s == shorten t

/-- The bytes of a `struct dirent`. -/
def dirent (inum : ℕ) (name : List UInt8) : List UInt8 :=
  byteOf inum 0::byteOf inum 1::(shorten name ++ List.replicate (DIRSIZ-(shorten name).length) 0)

def direntInum (de : List UInt8) : ℕ := get (fun k => de.getD k 0) 0 2

def direntName (de : List UInt8) : List UInt8 := de.drop 2

/-- Read the entry at `off`, with the text of the panic for a short read. -/
def readDirent (msg : String) (s : Store) (ip : Inode) (off : ℕ) :
    Except Halt (Store × Inode × List UInt8) := do
  let (s, ip, r) ← readi sb s ip off direntSize
  match r with
  | .done de => if de.length = direntSize then .ok (s, ip, de) else .error (.panic msg)
  | .fail => .error (.panic msg)
  | .console => .error (.panic msg)

def lookupLoop (name : List UInt8) :
    ℕ → Store → Inode → ℕ → Except Halt (Store × Inode × Option (ℕ × ℕ))
  | 0, s, ip, _ => .ok (s, ip, none)
  | fuel+1, s, ip, off =>
    if off < ip.size.toNat then do
      let (s, ip, de) ← readDirent sb "dirlookup read" s ip off
      if direntInum de = 0 then lookupLoop name fuel s ip (off+direntSize)
      else if namecmp name (direntName de) then .ok (s, ip, some (direntInum de, off))
      else lookupLoop name fuel s ip (off+direntSize)
    else .ok (s, ip, none)

/-- `dirlookup` up to its `iget`: the inode number and the offset of the entry. -/
def dirlookup (s : Store) (ip : Inode) (name : List UInt8) :
    Except Halt (Store × Inode × Option (ℕ × ℕ)) :=
  if ip.type = T_DIR then lookupLoop sb name (ip.size.toNat/direntSize+1) s ip 0
  else .error (.panic "dirlookup not DIR")

/-- The loop of `dirlink` that looks for an empty entry. -/
def emptyLoop : ℕ → Store → Inode → ℕ → Except Halt (Store × Inode × ℕ)
  | 0, s, ip, off => .ok (s, ip, off)
  | fuel+1, s, ip, off =>
    if off < ip.size.toNat then do
      let (s, ip, de) ← readDirent sb "dirlink read" s ip off
      if direntInum de = 0 then .ok (s, ip, off) else emptyLoop fuel s ip (off+direntSize)
    else .ok (s, ip, off)

/-- `dirlink` after `dirlookup` found nothing. -/
def addDirent (s : Store) (inum : ℕ) (ip : Inode) (name : List UInt8) (target : ℕ) :
    Except Halt (Store × Inode) := do
  let (s, ip, off) ← emptyLoop sb (ip.size.toNat/direntSize+1) s ip 0
  let (s, ip, r) ← writei sb s inum ip (dirent target name) off
  match r with
  | .done _ => .ok (s, ip)
  | .fail => .error (.panic "dirlink")
  | .console => .error (.panic "dirlink")

end

end Xv6.Fs
