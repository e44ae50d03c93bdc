import Xv6.Fs.Truncate

/-!
# The inode cache

The entries of `icache` over the disk: `iget`, `idup`, `ilock`, `ialloc`, `iput` and
`dirlink` of `fs.c`, and the operations of the file system on a cached inode. A run is
any sequence of them by callers that hold a reference, and a valid inode where the
function wants a locked one.
-/

set_option autoImplicit false

namespace Xv6.Fs
open Xv6.Kalloc

def NINODE : ℕ := 50

structure Entry where
  inum : ℕ
  ref : ℕ
  valid : Bool
  ip : Inode

structure Sys where
  store : Store
  cache : Fin NINODE → Entry

namespace Sys

def set (s : Sys) (k : Fin NINODE) (e : Entry) : Sys :=
  { s with cache := Function.update s.cache k e }

/-- Store back what a function did to the disk and to its inode. -/
def put (s : Sys) (k : Fin NINODE) (st : Store) (ip : Inode) : Sys where
  store := st
  cache := Function.update s.cache k { s.cache k with ip := ip }

def iget (s : Sys) (inum : ℕ) : Except Halt (Sys × Fin NINODE) :=
  match (List.finRange NINODE).find? (fun k => 0 < (s.cache k).ref ∧ (s.cache k).inum = inum) with
  | some k => .ok (s.set k { s.cache k with ref := (s.cache k).ref+1 }, k)
  | none =>
    match (List.finRange NINODE).find? (fun k => (s.cache k).ref = 0) with
    | none => .error (.panic "iget: no inodes")
    | some k => .ok (s.set k { s.cache k with inum := inum, ref := 1, valid := false }, k)

def idup (s : Sys) (k : Fin NINODE) : Sys :=
  s.set k { s.cache k with ref := (s.cache k).ref+1 }

section
variable (sb : Super)

def ilock (s : Sys) (k : Fin NINODE) : Except Halt Sys :=
  if (s.cache k).ref < 1 then .error (.panic "ilock")
  else if (s.cache k).valid then .ok s
  else
    let ip := dinode sb s.store.disk (s.cache k).inum
    if ip.type = 0 then .error (.panic "ilock: no type")
    else .ok (s.set k { s.cache k with valid := true, ip := ip })

def iput (s : Sys) (k : Fin NINODE) : Except Halt Sys := do
  let s ← if (s.cache k).valid ∧ (s.cache k).ip.nlink = 0 ∧ (s.cache k).ref = 1 then do
      let (st, ip) ← Fs.itrunc sb s.store (s.cache k).inum (s.cache k).ip
      let ip := { ip with type := 0 }
      let e := { s.cache k with ip := ip, valid := false }
      .ok { store := iupdate sb st (s.cache k).inum ip, cache := Function.update s.cache k e }
    else .ok s
  .ok (s.set k { s.cache k with ref := (s.cache k).ref-1 })

/-- The zeroed `struct dinode` with its type. -/
def fresh (type : UInt16) : Inode := ⟨type,0,0,0,0,fun _ => 0⟩

def ialloc (s : Sys) (type : UInt16) : Except Halt (Sys × Fin NINODE) :=
  match (List.range' 1 (sb.ninodes-1)).find? (fun i => (dinode sb s.store.disk i).type = 0) with
  | none => .error (.panic "ialloc: no inodes")
  | some inum => iget { s with store := iupdate sb s.store inum (fresh type) } inum

/-- `ip->nlink = n; iupdate(ip)`. -/
def relink (s : Sys) (k : Fin NINODE) (n : UInt16) : Sys :=
  let ip := { (s.cache k).ip with nlink := n }
  s.put k (iupdate sb s.store (s.cache k).inum ip) ip

/-- The part of `create` that makes the inode. -/
def makeInode (s : Sys) (type major minor : UInt16) : Except Halt (Sys × Fin NINODE) := do
  let (s, k) ← ialloc sb s type
  let s ← ilock sb s k
  let ip := { (s.cache k).ip with major := major, minor := minor, nlink := 1 }
  .ok (s.put k (iupdate sb s.store (s.cache k).inum ip) ip, k)

def dirlink (s : Sys) (k : Fin NINODE) (name : List UInt8) (target : ℕ) :
    Except Halt (Sys × Bool) := do
  let (st, ip, found) ← dirlookup sb s.store (s.cache k).ip name
  let s := s.put k st ip
  match found with
  | some (inum, _) => do
    let (s, l) ← s.iget inum
    let s ← s.iput sb l
    .ok (s, false)
  | none => do
    let (st, ip) ← addDirent sb s.store (s.cache k).inum (s.cache k).ip name target
    .ok (s.put k st ip, true)

end

end Sys

/-- The operations of the file system on the cache; `relink` stands for the stores of
`link`, `unlink` and `mkdir` into `nlink`. -/
inductive Op where
  | iget (inum : ℕ)
  | idup (k : Fin NINODE)
  | ilock (k : Fin NINODE)
  | makeInode (type major minor : UInt16)
  | relink (k : Fin NINODE) (n : UInt16)
  | readi (k : Fin NINODE) (off n : ℕ)
  | writei (k : Fin NINODE) (src : List UInt8) (off : ℕ)
  | dirlink (k : Fin NINODE) (name : List UInt8) (target : ℕ)
  | itrunc (k : Fin NINODE)
  | iput (k : Fin NINODE)

def Sys.run (sb : Super) (s : Sys) : Op → Except Halt Sys
  | .iget inum => do
    let (s, _) ← s.iget inum
    .ok s
  | .idup k => .ok (s.idup k)
  | .ilock k => s.ilock sb k
  | .makeInode type major minor => do
    let (s, _) ← s.makeInode sb type major minor
    .ok s
  | .relink k n => .ok (s.relink sb k n)
  | .readi k off n => do
    let (st, ip, _) ← Fs.readi sb s.store (s.cache k).ip off n
    .ok (s.put k st ip)
  | .writei k src off => do
    let (st, ip, _) ← Fs.writei sb s.store (s.cache k).inum (s.cache k).ip src off
    .ok (s.put k st ip)
  | .dirlink k name target => do
    let (s, _) ← s.dirlink sb k name target
    .ok s
  | .itrunc k => do
    let (st, ip) ← Fs.itrunc sb s.store (s.cache k).inum (s.cache k).ip
    .ok (s.put k st ip)
  | .iput k => s.iput sb k

/-- The caller holds a reference to an inode that it has loaded under the lock. -/
def Sys.Locked (s : Sys) (k : Fin NINODE) : Prop := 0 < (s.cache k).ref ∧ (s.cache k).valid = true

/-- What a caller has to see to: references it holds, inodes it has locked, an inode
number that exists, and lengths that fit a `uint`. -/
def Sys.Ready (sb : Super) (s : Sys) : Op → Prop
  | .iget _ => True
  | .idup k => 0 < (s.cache k).ref
  | .ilock k => 0 < (s.cache k).ref ∧ (s.cache k).inum < sb.ninodes
  | .makeInode type _ _ => type ≠ 0
  | .relink k _ => s.Locked k
  | .readi k _ n => s.Locked k ∧ n < 2^32
  | .writei k src _ => s.Locked k ∧ src.length < 2^32
  | .dirlink k _ _ => s.Locked k
  | .itrunc k => s.Locked k
  | .iput k => 0 < (s.cache k).ref

instance (s : Sys) (k : Fin NINODE) : Decidable (s.Locked k) := inferInstanceAs (Decidable (_ ∧ _))

instance (sb : Super) (s : Sys) : DecidablePred (s.Ready sb)
  | .iget _ => isTrue trivial
  | .idup k => inferInstanceAs (Decidable (0 < (s.cache k).ref))
  | .ilock k => inferInstanceAs (Decidable (0 < (s.cache k).ref ∧ (s.cache k).inum < sb.ninodes))
  | .makeInode type _ _ => inferInstanceAs (Decidable (type ≠ 0))
  | .relink k _ => inferInstanceAs (Decidable (s.Locked k))
  | .readi k _ n => inferInstanceAs (Decidable (s.Locked k ∧ n < 2^32))
  | .writei k src _ => inferInstanceAs (Decidable (s.Locked k ∧ src.length < 2^32))
  | .dirlink k _ _ => inferInstanceAs (Decidable (s.Locked k))
  | .itrunc k => inferInstanceAs (Decidable (s.Locked k))
  | .iput k => inferInstanceAs (Decidable (0 < (s.cache k).ref))

/-- The states of the runs from `s₀`. -/
inductive Reach (sb : Super) (s₀ : Sys) : Sys → Prop where
  | start : Reach sb s₀ s₀
  | step {s s' : Sys} {op : Op} (h : Reach sb s₀ s) (hr : s.Ready sb op)
      (hs : s.run sb op = .ok s') : Reach sb s₀ s'

/-- A list of operations, as long as the caller is ready for each. -/
def Sys.execute (sb : Super) (s : Sys) : List Op → Option Sys
  | [] => some s
  | op::ops =>
    if s.Ready sb op then
      match s.run sb op with
      | .ok s' => s'.execute sb ops
      | .error _ => none
    else none

theorem reach_execute {sb : Super} {s₀ s s' : Sys} (h : Reach sb s₀ s) (ops : List Op)
    (he : s.execute sb ops = some s') : Reach sb s₀ s' := by
  induction ops generalizing s with
  | nil =>
    cases he
    exact h
  | cons op ops ih =>
    rw [Sys.execute] at he
    split at he
    · next hr =>
      split at he
      · next s1 hs => exact ih (h.step hr hs) he
      · cases he
    · cases he

end Xv6.Fs
