import Xv6.Lib.Locks

/-!
# The locks of inodes

The `acquiresleep` and `releasesleep` of inode locks that a system call makes, for every way
through the code of `fs.c`, `sysfile.c`, `file.c` and `exec.c`. The inodes that a call meets
are arbitrary. `iput` takes the lock of its inode, so that `iunlockput` of a directory waits
for it once more, in `unlink` and `create` with the lock of the file in hand, and `dirlink`
takes the lock of the inode that has the name already.
-/

set_option autoImplicit false

namespace Xv6.InodeLocks
open Xv6.Locks

def iput (ip : ℕ) : List (LockOp ℕ) := [.acquire ip, .release ip]

def iunlockput (ip : ℕ) : List (LockOp ℕ) := .release ip::iput ip

/-- The loop of `namex` over the directories it goes through. -/
def namex (walk : List ℕ) : List (LockOp ℕ) := walk.flatMap fun ip => .acquire ip::iunlockput ip

/-- `nameiparent` that returns `dp`. -/
def nameiparent (walk : List ℕ) (dp : ℕ) : List (LockOp ℕ) := namex walk++[.acquire dp, .release dp]

/-- A call leaves a locked inode with `iunlock` or with `iunlockput`. -/
def leave (put : Bool) (ip : ℕ) : List (LockOp ℕ) := if put then iunlockput ip else [.release ip]

/-- The ways through the system calls, with the inodes they meet. -/
inductive Call where
  /-- A path that is not found; `last` is given up if the path has no component. -/
  | lost (walk : List ℕ) (last : Option ℕ)
  /-- `open` without `O_CREATE`; the same locks as `exec`, `chdir` to a file and `link` of a
  directory. -/
  | lookup (walk : List ℕ) (ip : ℕ) (put : Bool)
  | chdir (walk : List ℕ) (ip cwd : ℕ)
  | close (ip : ℕ)
  | read (ip : ℕ)
  | write (ip chunks : ℕ)
  /-- `link` without a directory for the new name. -/
  | linkLost (old : List ℕ) (ip : ℕ) (new : List ℕ) (last : Option ℕ)
  | link (old : List ℕ) (ip : ℕ) (new : List ℕ) (dp : ℕ) (found : Option ℕ)
  /-- `unlink` of a name that is not there, or of a dot. -/
  | unlinkLost (walk : List ℕ) (dp : ℕ)
  /-- `unlink` of a directory that is not empty. -/
  | unlinkFull (walk : List ℕ) (dp ip : ℕ)
  | unlink (walk : List ℕ) (dp ip : ℕ)
  /-- `create` of a name that is there. -/
  | createOld (walk : List ℕ) (dp ip : ℕ) (put : Bool)
  | create (walk : List ℕ) (dp ip : ℕ) (put : Bool)

def Call.locks : Call → List (LockOp ℕ)
  | .lost walk last => namex walk++(last.map iput).getD []
  | .lookup walk ip put => namex walk++.acquire ip::leave put ip
  | .chdir walk ip cwd => namex walk++.acquire ip::.release ip::iput cwd
  | .close ip => iput ip
  | .read ip => [.acquire ip, .release ip]
  | .write ip chunks => (List.replicate chunks [.acquire ip, .release ip]).flatten
  | .linkLost old ip new last =>
    namex old++.acquire ip::.release ip::(namex new++(last.map iput).getD []++.acquire ip::iunlockput ip)
  | .link old ip new dp found =>
    namex old++.acquire ip::.release ip::(nameiparent new dp++.acquire dp::((found.map iput).getD []++
      iunlockput dp++if found = none then iput ip else .acquire ip::iunlockput ip))
  | .unlinkLost walk dp => nameiparent walk dp++.acquire dp::iunlockput dp
  | .unlinkFull walk dp ip => nameiparent walk dp++.acquire dp::.acquire ip::(iunlockput ip++iunlockput dp)
  | .unlink walk dp ip => nameiparent walk dp++.acquire dp::.acquire ip::(iunlockput dp++iunlockput ip)
  | .createOld walk dp ip put => nameiparent walk dp++.acquire dp::(iunlockput dp++.acquire ip::leave put ip)
  | .create walk dp ip put => nameiparent walk dp++.acquire dp::.acquire ip::(iunlockput dp++leave put ip)

/-- The inode that is locked first and the one that is locked with it. -/
def Call.nested : Call → Option (ℕ × ℕ)
  | .link _ _ _ dp (some found) => some (dp, found)
  | .unlinkFull _ dp ip => some (dp, ip)
  | .unlink _ dp ip => some (dp, ip)
  | .create _ dp ip _ => some (dp, ip)
  | _ => none

/-- A call that locks two inodes at a time locks two. -/
def Call.Distinct (c : Call) : Prop := ∀ dp ip, c.nested = some (dp, ip) → dp ≠ ip

variable {b : Bool} {dp ip : ℕ} {ys : List (LockOp ℕ)}

theorem orderly_nil : Orderly b (∅ : Set ℕ) [] := rfl

theorem orderly_iput (ip : ℕ) : Orderly b ∅ (iput ip) := Orderly.once b ip orderly_nil

theorem orderly_last (last : Option ℕ) : Orderly b ∅ ((last.map iput).getD []) := by
  cases last with
  | none => exact orderly_nil
  | some ip => exact orderly_iput ip

theorem orderly_unlockput (ip : ℕ) : Orderly b ∅ (.acquire ip::iunlockput ip) :=
  Orderly.once b ip (orderly_iput ip)

theorem orderly_leave (put : Bool) (ip : ℕ) : Orderly b ∅ (.acquire ip::leave put ip) := by
  cases put with
  | false => exact orderly_iput ip
  | true => exact orderly_unlockput ip

theorem orderly_namex (walk : List ℕ) : Orderly b ∅ (namex walk) := by
  induction walk with
  | nil => exact orderly_nil
  | cons ip walk ih =>
    rw [namex, List.flatMap_cons]
    exact (orderly_unlockput ip).append ih

theorem orderly_parent (walk : List ℕ) (dp : ℕ) : Orderly b ∅ (nameiparent walk dp) :=
  (orderly_namex walk).append (orderly_iput dp)

/-! With a lock in hand. -/

theorem orderly_hold (h : Orderly b {dp} ys) : Orderly b ∅ (.acquire dp::ys) := by
  refine ⟨Set.notMem_empty dp,fun _ => rfl,?_⟩
  rwa [insert_empty_eq]

theorem orderly_held (put : Bool) (ip : ℕ) : Orderly b {ip} (leave put ip) := by
  have h := (orderly_leave (b := b) put ip).2.2
  rwa [insert_empty_eq] at h

theorem orderly_inner (hne : dp ≠ ip) (h : Orderly true {dp} ys) :
    Orderly true {dp} (.acquire ip::.release ip::ys) := by
  have hnew : ip ∉ ({dp} : Set ℕ) := hne.symm
  refine ⟨hnew,by rintro ⟨⟩,Set.mem_insert ip _,?_⟩
  rwa [Set.insert_sdiff_of_mem _ (Set.mem_singleton ip), Set.sdiff_singleton_eq_self hnew]

theorem orderly_swap (hne : dp ≠ ip) (h : Orderly true {ip} ys) :
    Orderly true {dp} (.acquire ip::.release dp::ys) := by
  have hold : dp ∉ ({ip} : Set ℕ) := hne
  refine ⟨hne.symm,by rintro ⟨⟩,Set.mem_insert_of_mem ip rfl,?_⟩
  rwa [Set.pair_comm, Set.insert_sdiff_of_mem _ (Set.mem_singleton dp), Set.sdiff_singleton_eq_self hold]

theorem Call.orderly (c : Call) (hd : c.Distinct) : Orderly c.nested.isSome ∅ c.locks := by
  cases c with
  | lost walk last => exact (orderly_namex walk).append (orderly_last last)
  | lookup walk ip put => exact (orderly_namex walk).append (orderly_leave put ip)
  | chdir walk ip cwd => exact (orderly_namex walk).append (.once _ ip (orderly_iput cwd))
  | close ip => exact orderly_iput ip
  | read ip => exact orderly_iput ip
  | write ip chunks =>
    change Orderly false ∅ (List.replicate chunks (iput ip)).flatten
    induction chunks with
    | zero => exact orderly_nil
    | succ k ih => exact (orderly_iput ip).append (ih hd)
  | linkLost old ip new last =>
    exact (orderly_namex old).append (.once _ ip (((orderly_namex new).append (orderly_last last)).append
      (orderly_unlockput ip)))
  | link old ip new dp found =>
    refine (orderly_namex old).append (.once _ ip ((orderly_parent new dp).append (orderly_hold ?_)))
    cases found with
    | none => exact (orderly_held true dp).append (orderly_iput ip)
    | some found =>
      exact orderly_inner (hd dp found rfl) ((orderly_held true dp).append (orderly_unlockput ip))
  | unlinkLost walk dp => exact (orderly_parent walk dp).append (orderly_unlockput dp)
  | unlinkFull walk dp ip =>
    have hne := hd dp ip rfl
    exact (orderly_parent walk dp).append (orderly_hold (orderly_inner hne (orderly_inner hne (orderly_held true dp))))
  | unlink walk dp ip =>
    have hne := hd dp ip rfl
    exact (orderly_parent walk dp).append (orderly_hold (orderly_swap hne (orderly_inner hne.symm (orderly_held true ip))))
  | createOld walk dp ip put =>
    exact (orderly_parent walk dp).append ((orderly_unlockput dp).append (orderly_leave put ip))
  | create walk dp ip put =>
    have hne := hd dp ip rfl
    exact (orderly_parent walk dp).append (orderly_hold (orderly_swap hne (orderly_inner hne.symm (orderly_held put ip))))

/-! ### Deadlocks -/

/-- The calls that processes may make. -/
def Calls (ok : Call → Prop) (nests : Bool) (ops : List (LockOp ℕ)) : Prop :=
  ∃ c, ok c ∧ c.nested.isSome = nests ∧ c.locks = ops

/-- If at most one process at a time is in a call that locks two inodes at a time, and these
are two, no processes wait for each other. -/
theorem inode_locks_safe {n : ℕ} {s : St ℕ n} (h : Reach (Calls Call.Distinct) Alone quiet s)
    (S : Set (Fin n)) : ¬ Deadlocked s S := by
  have hprogs : ∀ b ops, Calls Call.Distinct b ops → Orderly b ∅ ops := by
    rintro b ops ⟨c,hd,rfl,rfl⟩
    exact c.orderly hd
  exact (h.inv hprogs).no_deadlock S

/-- A process that makes a directory in the root while another one waits to read it. -/
theorem inode_locks_safe_mkdir : ∃ s : St ℕ 2, Reach (Calls Call.Distinct) Alone quiet s ∧ s.owner 1 = some 0 ∧
    s.todo 1 = [.acquire 1, .release 1] ∧ ∀ S, ¬ Deadlocked s S := by
  have h0 : Reach (Calls Call.Distinct) Alone (quiet : St ℕ 2) quiet := .start
  have h1 := h0.step (.start (p := 0) rfl ⟨.create [] 1 5 true,by rintro _ _ ⟨⟩; decide,rfl,rfl⟩ fun _ _ hq =>
    absurd rfl hq)
  have h2 := h1.step (.start (p := 1) rfl ⟨.read 1,by rintro _ _ ⟨⟩,rfl,rfl⟩ (by rintro ⟨⟩))
  have h3 := h2.run [0,0,0] rfl
  exact ⟨_,h3,rfl,rfl,inode_locks_safe h3⟩

/-- `link` to `.` waits for the directory that it has locked itself, and so do `mkdir` and
`unlink` of the same name for each other. -/
theorem inode_locks_deadlock :
    (∃ s : St ℕ 1, Reach (Calls fun _ => True) (fun _ _ => True) quiet s ∧ Deadlocked s {0}) ∧
      ∃ s : St ℕ 2, Reach (Calls fun _ => True) (fun _ _ => True) quiet s ∧ Deadlocked s Set.univ := by
  constructor
  · have h0 : Reach (Calls fun _ => True) (fun _ _ => True) (quiet : St ℕ 1) quiet := .start
    have h1 := h0.step (.start (p := 0) rfl ⟨.link [1] 5 [] 1 (some 1),trivial,rfl,rfl⟩ trivial)
    have h2 := h1.run [0,0,0,0,0,0,0,0,0] rfl
    refine ⟨_,h2,⟨0,rfl⟩,fun p hp => ?_⟩
    obtain rfl : p = 0 := hp
    exact ⟨1,_,0,rfl,rfl,rfl⟩
  · have h0 : Reach (Calls fun _ => True) (fun _ _ => True) (quiet : St ℕ 2) quiet := .start
    have h1 := h0.step (.start (p := 0) rfl ⟨.create [] 1 5 true,trivial,rfl,rfl⟩ trivial)
    have h2 := h1.step (.start (p := 1) rfl ⟨.unlink [] 1 5,trivial,rfl,rfl⟩ trivial)
    have h3 := h2.run [0,0,0,0,0,1,1,1] rfl
    refine ⟨_,h3,⟨0,trivial⟩,fun p _ => ?_⟩
    fin_cases p
    · exact ⟨1,_,1,trivial,rfl,rfl⟩
    · exact ⟨5,_,0,trivial,rfl,rfl⟩

end Xv6.InodeLocks
