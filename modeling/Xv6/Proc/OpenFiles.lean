import Xv6.Proc.Files
import Xv6.Lib.Account

/-!
# Descriptors and reference counts

The file table against the descriptors of one process, the other processes' references
being a number for each file. `Tallied` says that the counts add up and that an unused
file has no type. Each function of `file.c` and each descriptor call keeps it: a reference
that a call holds in a local variable is part of the number, taken over from the table
by `filealloc` and `filedup`, given to a descriptor by `fdalloc` and given up by
`fileclose`. The counts being right, the panics of `filedup` and `fileclose` are avoided.
-/

set_option autoImplicit false

namespace Xv6.OpenFiles
open Xv6.Kalloc Xv6.Files Xv6.Halting Xv6.Refs

def O_WRONLY : BitVec 32 := 0x001#32
def O_RDWR : BitVec 32 := 0x002#32

/-- `sys_open` from `filealloc` on. `found` says whether the file system has given it an
inode to open; the path, the creation and the test for directories are its part. -/
def sysopen (ph : Phys) (t : Ftable) (o : Ofile) (found : Bool) (omode : BitVec 32) :
    Except Halt (Phys × Ftable × Ofile × ℤ) :=
  if !found then .ok (ph, t, o, -1)
  else
    match filealloc t with
    | none => .ok (ph, t, o, -1)
    | some (t, f) =>
      match fdalloc o f with
      | none => do
        let (ph, t) ← fileclose ph t f
        .ok (ph, t, o, -1)
      | some (o, fd) =>
        .ok (ph, t.set f { t.file f with
          type := .inode,
          writable := omode &&& O_WRONLY ≠ 0#32 || omode &&& O_RDWR ≠ 0#32 }, o, fd.val)

/-- The panics of the file table. -/
def FileHalt (e : Halt) : Prop := e = .panic "fileclose" ∨ e = .panic "filedup"

theorem kfree_files (ph : Phys) (f : ℕ) : Avoids FileHalt (kfree ph f) := by
  rw [kfree]
  split
  · exact Avoids.ok _ _
  · exact Avoids.error (by simp [FileHalt])

/-- One more reference to `f` that is in no descriptor. -/
def hold (f : Fin NFILE) (r : Fin NFILE → ℕ) (x : Fin NFILE) : ℕ := r x+if f = x then 1 else 0

theorem hold_comm (f f' : Fin NFILE) (r : Fin NFILE → ℕ) :
    hold f (hold f' r) = hold f' (hold f r) := by
  funext x
  simp only [hold]
  omega

/-- Each count is the number of descriptors in `o` and `r` others. -/
structure Tallied (t : Ftable) (o : Ofile) (r : Fin NFILE → ℕ) : Prop where
  ref : ∀ f, (t.file f).ref = number o f+r f
  blank : ∀ f, (t.file f).ref = 0 → (t.file f).type = .none

section
variable {t t' : Ftable} {o o' : Ofile} {r : Fin NFILE → ℕ} {f f0 f1 : Fin NFILE} {fd : Fin NOFILE}
  {ph : Phys}

theorem Tallied.held (h : Tallied t o (hold f r)) : 0 < (t.file f).ref := by
  have := h.ref f
  rw [hold, if_pos rfl] at this
  omega

theorem Tallied.opened (h : Tallied t o r) (hfd : o fd = some f) : 0 < (t.file f).ref := by
  have hpos : 0 < number o f := number_pos.mpr ⟨fd,hfd⟩
  have := h.ref f
  omega

/-! ## The functions of `file.c` -/

theorem filealloc_some (h : filealloc t = some (t', f)) :
    (t.file f).ref = 0 ∧ t' = t.set f { t.file f with ref := 1 } := by
  rw [filealloc, Option.map_eq_some_iff] at h
  obtain ⟨x,hx,he⟩ := h
  cases he
  have h0 := List.find?_some hx
  exact ⟨of_decide_eq_true h0,rfl⟩

theorem fdalloc_some (h : fdalloc o f = some (o', fd)) :
    o fd = none ∧ o' = Function.update o fd (some f) := by
  rw [fdalloc, Option.map_eq_some_iff] at h
  obtain ⟨x,hx,he⟩ := h
  cases he
  have h0 := List.find?_some hx
  exact ⟨of_decide_eq_true h0,rfl⟩

theorem Tallied.set (h : Tallied t o r) {x : File} {r' : Fin NFILE → ℕ}
    (hx : x.ref = number o f+r' f) (hr : ∀ y, y ≠ f → r' y = r y)
    (hb : x.ref = 0 → x.type = .none) : Tallied (t.set f x) o r' := by
  constructor
  · intro y
    rw [set_file]
    by_cases hy : y = f
    · rw [if_pos hy, hy]
      exact hx
    · rw [if_neg hy, hr y hy]
      exact h.ref y
  · intro y
    rw [set_file]
    by_cases hy : y = f
    · rw [if_pos hy]
      exact hb
    · rw [if_neg hy]
      exact h.blank y

theorem hold_self (f : Fin NFILE) (r : Fin NFILE → ℕ) : hold f r f = r f+1 := by
  rw [hold, if_pos rfl]

theorem hold_other {y : Fin NFILE} (r : Fin NFILE → ℕ) (h : y ≠ f) : hold f r y = r y := by
  rw [hold, if_neg (Ne.symm h), Nat.add_zero]

theorem Tallied.alloc (h : Tallied t o r) (ha : filealloc t = some (t', f)) :
    Tallied t' o (hold f r) := by
  obtain ⟨h0,rfl⟩ := filealloc_some ha
  have href := h.ref f
  refine h.set ?_ (fun y hy => hold_other r hy) (fun h1 => ?_)
  · dsimp only
    rw [hold_self]
    omega
  · cases h1

theorem Tallied.release (h : Tallied t o (hold f r)) (hr : (t.file f).ref = 1) :
    Tallied (t.set f { t.file f with ref := 0, type := .none }) o r := by
  have href := h.ref f
  rw [hold_self] at href
  refine h.set ?_ (fun y hy => (hold_other r hy).symm) (fun _ => rfl)
  dsimp only
  omega

theorem Tallied.close (h : Tallied t o (hold f r)) :
    Yields FileHalt (fun x => Tallied x.2 o r) (fileclose ph t f) := by
  have hpos := h.held
  have href := h.ref f
  rw [hold_self] at href
  rw [fileclose, if_neg (by omega)]
  split
  · refine Yields.ok (h.set ?_ (fun y hy => (hold_other r hy).symm) (fun h0 => ?_))
    · dsimp only
      omega
    · dsimp only at h0
      omega
  · have hrel := h.release (by omega)
    split
    · -- the pipe part changes the pages and the open ends, not the files
      rw [pipeclose]
      dsimp only
      split
      · exact Yields.bind (P := fun _ => True) ⟨kfree_files _ _,fun _ _ => trivial⟩
          fun _ _ => Yields.ok ⟨hrel.ref,hrel.blank⟩
      · exact Yields.ok ⟨hrel.ref,hrel.blank⟩
    · exact Yields.ok hrel

theorem Tallied.dup (h : Tallied t o r) (hpos : 0 < (t.file f).ref) :
    Yields FileHalt (fun t' => Tallied t' o (hold f r)) (filedup t f) := by
  have href := h.ref f
  rw [filedup, if_neg (by omega)]
  refine Yields.ok (h.set ?_ (fun y hy => hold_other r hy) (fun h0 => ?_))
  · dsimp only
    rw [hold_self]
    omega
  · cases h0

/-! ## Descriptors -/

theorem Tallied.fill (h : Tallied t o (hold f r)) (hfd : o fd = none) :
    Tallied t (Function.update o fd (some f)) r := by
  refine ⟨fun y => ?_,h.blank⟩
  rw [h.ref, number_fill hfd, hold]
  omega

theorem Tallied.clear (h : Tallied t o r) (hfd : o fd = some f) :
    Tallied t (Function.update o fd none) (hold f r) := by
  refine ⟨fun y => ?_,h.blank⟩
  have hnum := number_clear hfd y
  rw [h.ref, hold]
  omega

theorem Tallied.install (h : Tallied t o (hold f r)) (ha : fdalloc o f = some (o', fd)) :
    Tallied t o' r ∧ o' fd = some f := by
  obtain ⟨hfd,rfl⟩ := fdalloc_some ha
  exact ⟨h.fill hfd,Function.update_self ..⟩

theorem Tallied.newPipe (h : Tallied t o (hold f1 (hold f0 r))) (hne : f1 ≠ f0) (p : ℕ) :
    Tallied (newPipe t f0 f1 p) o (hold f1 (hold f0 r)) := by
  have hfile := newPipe_file t p hne
  have h1 := h.held
  rw [hold_comm] at h
  have h0 := h.held
  constructor
  · intro y
    rw [hfile, hold_comm, ← h.ref y]
    split
    · next hy => rw [hy]
    · split
      · next hy => rw [hy]
      · rfl
  · intro y hy
    rw [hfile] at hy ⊢
    split at hy
    · dsimp only at hy
      omega
    · next hy1 =>
      split at hy
      · dsimp only at hy
        omega
      · next hy0 =>
        rw [if_neg hy1, if_neg hy0]
        exact h.blank y hy

/-- The two references that a successful `pipealloc` hands over. -/
def handed (r : Fin NFILE → ℕ) : Option (Fin NFILE × Fin NFILE) → Fin NFILE → ℕ
  | none => r
  | some (f0, f1) => hold f1 (hold f0 r)

theorem Tallied.pipealloc (h : Tallied t o r) :
    Yields FileHalt (fun x => Tallied x.2.1 o (handed r x.2.2)) (pipealloc ph t) := by
  rw [Files.pipealloc]
  split
  · exact Yields.ok h
  · next t0 f0 hf0 =>
    have h0 := h.alloc hf0
    split
    · exact h0.close.bind fun x hx => Yields.ok hx
    · next t1 f1 hf1 =>
      have h1 := h0.alloc hf1
      split
      · have h2 := h1
        rw [hold_comm] at h2
        exact h2.close.bind fun x hx => hx.close.bind fun y hy => Yields.ok hy
      · have hne : f1 ≠ f0 := by
          rintro rfl
          have := (filealloc_some hf1).1
          have := h0.held
          omega
        exact Yields.ok (h1.newPipe hne _)

theorem Tallied.syspipe (h : Tallied t o r) :
    Yields FileHalt (fun x => Tallied x.2.1 x.2.2.1 r) (syspipe ph t o) := by
  refine h.pipealloc.bind fun x hx => ?_
  obtain ⟨ph1,t1,_ | ⟨rf,wf⟩⟩ := x
  · exact Yields.ok hx
  · replace hx : Tallied t1 o (hold rf (hold wf r)) := hold_comm wf rf r ▸ hx
    dsimp only
    split
    · exact hx.close.bind fun y hy => hy.close.bind fun z hz => Yields.ok hz
    · next o1 fd0 hfd0 =>
      obtain ⟨h1,hset⟩ := hx.install hfd0
      split
      · exact (h1.clear hset).close.bind fun y hy => hy.close.bind fun z hz => Yields.ok hz
      · next o2 fd1 hfd1 => exact Yields.ok (h1.install hfd1).1

theorem Tallied.sysopen (h : Tallied t o r) {found : Bool} {omode : BitVec 32} :
    Yields FileHalt (fun x => Tallied x.2.1 x.2.2.1 r) (sysopen ph t o found omode) := by
  rw [OpenFiles.sysopen]
  split
  · exact Yields.ok h
  · split
    · exact Yields.ok h
    · next t1 f hf =>
      have h1 := h.alloc hf
      split
      · exact h1.close.bind fun y hy => Yields.ok hy
      · next o1 fd hfd =>
        have hpos := h1.held
        have h2 := (h1.install hfd).1
        refine Yields.ok (h2.set (h2.ref f) (fun _ _ => rfl) (fun h0 => ?_))
        dsimp only at h0
        omega

theorem Tallied.sysclose (h : Tallied t o r) :
    Yields FileHalt (fun x => Tallied x.2.1 x.2.2.1 r ∧
      ∀ fd', x.2.2.1 fd' = if fd' = fd then none else o fd') (sysclose ph t o fd) := by
  rw [Files.sysclose]
  split
  · next hfd =>
    refine Yields.ok ⟨h,fun fd' => ?_⟩
    dsimp only
    split
    · next he => rw [he, hfd]
    · rfl
  · next f hfd =>
    exact (h.clear hfd).close.bind fun y hy =>
      Yields.ok ⟨hy,fun fd' => Function.update_apply o fd none fd'⟩

theorem Tallied.sysdup (h : Tallied t o r) :
    Yields FileHalt (fun x => Tallied x.1 x.2.1 r) (sysdup t o fd) := by
  rw [Files.sysdup]
  split
  · exact Yields.ok h
  · next f hfd =>
    split
    · exact Yields.ok h
    · next o1 fd1 hfd1 =>
      exact (h.dup (h.opened hfd)).bind fun t1 h1 => Yields.ok (h1.install hfd1).1

theorem Tallied.closeAll (h : Tallied t o r) (l : List (Fin NOFILE)) :
    Yields FileHalt (fun x => Tallied x.2.1 x.2.2 r ∧
      ∀ fd, x.2.2 fd = if fd ∈ l then none else o fd) (closeAll l ph t o) := by
  induction l generalizing ph t o with
  | nil => exact Yields.ok ⟨h,fun fd => by rw [if_neg List.not_mem_nil]⟩
  | cons fd l ih =>
    refine h.sysclose.bind fun x hx => (ih hx.1).mono fun y hy => ⟨hy.1,fun fd' => ?_⟩
    rw [hy.2, hx.2]
    by_cases h1 : fd' = fd
    · simp [h1]
    · simp [h1]

theorem Tallied.dupAll {l : List (Fin NOFILE)} (h : Tallied t o r) (parent : Ofile)
    (hpar : ∀ fd f, parent fd = some f → 0 < r f) (hl : l.Nodup) (hfree : ∀ fd ∈ l, o fd = none) :
    Yields FileHalt (fun x => Tallied x.1 x.2 r) (dupAll parent l t o) := by
  induction l generalizing t o with
  | nil => exact Yields.ok h
  | cons fd l ih =>
    obtain ⟨hnot,hl⟩ := List.nodup_cons.mp hl
    rw [Files.dupAll]
    split
    · exact ih h hl fun fd' hm => hfree fd' (List.mem_cons_of_mem fd hm)
    · next f hf =>
      have hpos : 0 < (t.file f).ref := by
        have h1 := hpar fd f hf
        have h2 := h.ref f
        omega
      refine (h.dup hpos).bind fun t1 h1 => ih (h1.fill (hfree fd List.mem_cons_self)) hl ?_
      intro fd' hm
      have hne : fd' ≠ fd := fun he => hnot (he ▸ hm)
      rw [Function.update_of_ne hne]
      exact hfree fd' (List.mem_cons_of_mem fd hm)

end

end Xv6.OpenFiles
