import Xv6.Lib.Account
import Xv6.Fs.Icache

/-!
# The inode cache under concurrency

`ialloc`, `iget`, `idup`, `ilock`, `iupdate`, `iunlock` and `iput` of `fs.c` run by any
number of processes, one step for every piece of code that a lock keeps whole: the
critical sections of `icache.lock`, the accesses to an inode block under its buffer's
lock, and the pieces of `iput` between taking and releasing `ip->lock`. A reference is
an element of `refs` from the call that returns it until it is given to `iput`; it may
be used by any process that the reference is shared with, as that of an open file is.
-/

set_option autoImplicit false

namespace Xv6.InodeCache
open Xv6.Fs

/-- An entry of `icache`. `dirty` records a change since the last `iupdate`. -/
structure CEntry (n : ℕ) where
  dev : ℕ
  inum : ℕ
  ref : ℕ
  valid : Bool
  ip : Inode
  lock : Option (Fin n)
  dirty : Bool

/-- The pieces of `iput`: it waits for `ip->lock`, looks at the inode, truncates it,
marks it free on the disk and invalid in the cache, releases the lock, and drops the
reference. -/
inductive PutPhase where
  | wait
  | examine
  | truncate
  | free
  | invalidate
  | release
  | drop
  deriving DecidableEq

inductive Pc where
  | run
  | alloc (dev inum : ℕ) (type : UInt16)
  | get (dev inum : ℕ)
  | lock (k : Fin NINODE)
  | load (k : Fin NINODE)
  | put (ph : PutPhase) (k : Fin NINODE)
  | panic (msg : String)
  deriving DecidableEq

/-- `freed` records the truncations made by `iput`. -/
structure St (n : ℕ) where
  disk : ℕ → ℕ → Inode
  entry : Fin NINODE → CEntry n
  refs : List (Fin NINODE)
  pc : Fin n → Pc
  freed : List (ℕ × ℕ)

variable {n : ℕ}

namespace St

def goto (s : St n) (p : Fin n) (x : Pc) : St n := { s with pc := Function.update s.pc p x }

def edit (s : St n) (k : Fin NINODE) (e : CEntry n) : St n :=
  { s with entry := Function.update s.entry k e }

def write (s : St n) (dev inum : ℕ) (ip : Inode) : St n :=
  { s with disk := Function.update s.disk dev (Function.update (s.disk dev) inum ip) }

def dinode (s : St n) (k : Fin NINODE) : Inode := s.disk (s.entry k).dev (s.entry k).inum

/-- The entry that the loop of `iget` stops at, and the empty one that it remembers. -/
def cached (s : St n) (dev inum : ℕ) : Option (Fin NINODE) :=
  (List.finRange NINODE).find? fun k =>
    0 < (s.entry k).ref ∧ (s.entry k).dev = dev ∧ (s.entry k).inum = inum

def empty (s : St n) : Option (Fin NINODE) :=
  (List.finRange NINODE).find? fun k => (s.entry k).ref = 0

/-- A process that is inside `ilock` for an entry or has it locked. -/
def Uses (s : St n) (p : Fin n) (k : Fin NINODE) : Prop :=
  s.pc p = .lock k ∨ s.pc p = .load k ∨
    (s.entry k).lock = some p ∧ ∀ ph, s.pc p ≠ .put ph k

end St

/-- The steps of `iput`. A reference goes to it when it is not needed for an inode
that someone has locked. -/
inductive PutStep (s : St n) (p : Fin n) : St n → Prop where
  | call {k : Fin NINODE} (hp : s.pc p = .run) (hk : k ∈ s.refs)
      (hu : ∀ q, s.Uses q k → q ≠ p ∧ k ∈ s.refs.erase k) :
      PutStep s p { s.goto p (.put .wait k) with refs := s.refs.erase k }
  | acquire {k : Fin NINODE} (hp : s.pc p = .put .wait k) (hl : (s.entry k).lock = none) :
      PutStep s p ((s.edit k { s.entry k with lock := some p }).goto p (.put .examine k))
  | last {k : Fin NINODE} (hp : s.pc p = .put .examine k) (hv : (s.entry k).valid = true)
      (hn : (s.entry k).ip.nlink = 0) (hr : (s.entry k).ref = 1) :
      PutStep s p (s.goto p (.put .truncate k))
  | keep {k : Fin NINODE} (hp : s.pc p = .put .examine k)
      (h : ¬ ((s.entry k).valid = true ∧ (s.entry k).ip.nlink = 0 ∧ (s.entry k).ref = 1)) :
      PutStep s p (s.goto p (.put .release k))
  | truncate {k : Fin NINODE} {ip : Inode} (hp : s.pc p = .put .truncate k)
      (hip : ip = { (s.entry k).ip with size := 0, addrs := fun _ => 0 }) :
      PutStep s p { ((s.write (s.entry k).dev (s.entry k).inum ip).edit k
        { s.entry k with ip := ip }).goto p (.put .free k) with
        freed := ((s.entry k).dev,(s.entry k).inum)::s.freed }
  | free {k : Fin NINODE} {ip : Inode} (hp : s.pc p = .put .free k)
      (hip : ip = { (s.entry k).ip with type := 0 }) :
      PutStep s p (((s.write (s.entry k).dev (s.entry k).inum ip).edit k
        { s.entry k with ip := ip }).goto p (.put .invalidate k))
  | invalidate {k : Fin NINODE} (hp : s.pc p = .put .invalidate k) :
      PutStep s p ((s.edit k { s.entry k with valid := false }).goto p (.put .release k))
  | release {k : Fin NINODE} (hp : s.pc p = .put .release k) :
      PutStep s p ((s.edit k { s.entry k with lock := none }).goto p (.put .drop k))
  | drop {k : Fin NINODE} (hp : s.pc p = .put .drop k) :
      PutStep s p ((s.edit k { s.entry k with ref := (s.entry k).ref-1 }).goto p .run)

/-- All steps, with `ninodes` inodes on the disk. A caller uses an inode only as long as
a reference to it is out, changes it only under its lock, calls `iupdate` before it
unlocks it, and never stores type 0 itself. -/
inductive Step (ninodes : ℕ) (s : St n) (p : Fin n) : St n → Prop where
  | iput {s' : St n} (h : PutStep s p s') : Step ninodes s p s'
  | ialloc {dev : ℕ} {type : UInt16} (hp : s.pc p = .run) (ht : type ≠ 0) :
      Step ninodes s p (s.goto p (.alloc dev 1 type))
  | allocNext {dev inum : ℕ} {type : UInt16} (hp : s.pc p = .alloc dev inum type)
      (hi : inum < ninodes) (ht : (s.disk dev inum).type ≠ 0) :
      Step ninodes s p (s.goto p (.alloc dev (inum+1) type))
  | allocTake {dev inum : ℕ} {type : UInt16} (hp : s.pc p = .alloc dev inum type)
      (hi : inum < ninodes) (ht : (s.disk dev inum).type = 0) :
      Step ninodes s p ((s.write dev inum (Sys.fresh type)).goto p (.get dev inum))
  | allocNone {dev inum : ℕ} {type : UInt16} (hp : s.pc p = .alloc dev inum type)
      (hi : ¬ inum < ninodes) : Step ninodes s p (s.goto p (.panic "ialloc: no inodes"))
  | iget {dev inum : ℕ} (hp : s.pc p = .run) : Step ninodes s p (s.goto p (.get dev inum))
  | getCached {dev inum : ℕ} {k : Fin NINODE} (hp : s.pc p = .get dev inum)
      (hk : s.cached dev inum = some k) :
      Step ninodes s p { (s.edit k { s.entry k with ref := (s.entry k).ref+1 }).goto p .run with
        refs := k::s.refs }
  | getEmpty {dev inum : ℕ} {k : Fin NINODE} (hp : s.pc p = .get dev inum)
      (hc : s.cached dev inum = none) (hk : s.empty = some k) :
      Step ninodes s p { (s.edit k { s.entry k with
        dev := dev, inum := inum, ref := 1, valid := false }).goto p .run with refs := k::s.refs }
  | getNone {dev inum : ℕ} (hp : s.pc p = .get dev inum) (hc : s.cached dev inum = none)
      (hk : s.empty = none) : Step ninodes s p (s.goto p (.panic "iget: no inodes"))
  | idup {k : Fin NINODE} (hp : s.pc p = .run) (hk : k ∈ s.refs) :
      Step ninodes s p { s.edit k { s.entry k with ref := (s.entry k).ref+1 } with
        refs := k::s.refs }
  | ilock {k : Fin NINODE} (hp : s.pc p = .run) (hk : k ∈ s.refs) (hr : ¬ (s.entry k).ref < 1) :
      Step ninodes s p (s.goto p (.lock k))
  | lockPanic {k : Fin NINODE} (hp : s.pc p = .run) (hk : k ∈ s.refs) (hr : (s.entry k).ref < 1) :
      Step ninodes s p (s.goto p (.panic "ilock"))
  | lockAcquire {k : Fin NINODE} (hp : s.pc p = .lock k) (hl : (s.entry k).lock = none) :
      Step ninodes s p ((s.edit k { s.entry k with lock := some p }).goto p (.load k))
  | loaded {k : Fin NINODE} (hp : s.pc p = .load k) (hv : (s.entry k).valid = true) :
      Step ninodes s p (s.goto p .run)
  | load {k : Fin NINODE} (hp : s.pc p = .load k) (hv : (s.entry k).valid = false)
      (ht : (s.dinode k).type ≠ 0) :
      Step ninodes s p ((s.edit k { s.entry k with ip := s.dinode k, valid := true }).goto p .run)
  | loadPanic {k : Fin NINODE} (hp : s.pc p = .load k) (hv : (s.entry k).valid = false)
      (ht : (s.dinode k).type = 0) :
      Step ninodes s p ((s.edit k { s.entry k with ip := s.dinode k, valid := true }).goto p
        (.panic "ilock: no type"))
  | modify {k : Fin NINODE} {ip : Inode} (hp : s.pc p = .run) (hl : (s.entry k).lock = some p)
      (hv : (s.entry k).valid = true) (ht : ip.type ≠ 0) :
      Step ninodes s p (s.edit k { s.entry k with ip := ip, dirty := true })
  | iupdate {k : Fin NINODE} (hp : s.pc p = .run) (hl : (s.entry k).lock = some p)
      (hv : (s.entry k).valid = true) :
      Step ninodes s p ((s.write (s.entry k).dev (s.entry k).inum (s.entry k).ip).edit k
        { s.entry k with dirty := false })
  | iunlock {k : Fin NINODE} (hp : s.pc p = .run) (hl : (s.entry k).lock = some p)
      (hd : (s.entry k).dirty = false) (hr : ¬ (s.entry k).ref < 1) :
      Step ninodes s p (s.edit k { s.entry k with lock := none })
  | unlockPanic {k : Fin NINODE} (hp : s.pc p = .run) (hl : (s.entry k).lock = none ∨
      (s.entry k).ref < 1) : Step ninodes s p (s.goto p (.panic "iunlock"))

/-- The cache as `iinit` leaves it, over any disk. -/
structure Start (s : St n) : Prop where
  ref : ∀ k, (s.entry k).ref = 0
  lock : ∀ k, (s.entry k).lock = none
  dirty : ∀ k, (s.entry k).dirty = false
  refs : s.refs = []
  pc : ∀ p, s.pc p = .run

inductive Reach (ninodes : ℕ) (s₀ : St n) : St n → Prop where
  | start : Reach ninodes s₀ s₀
  | step {s s' : St n} {p : Fin n} (h : Reach ninodes s₀ s) (hs : Step ninodes s p s') :
      Reach ninodes s₀ s'

end Xv6.InodeCache
