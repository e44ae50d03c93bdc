import Xv6.Proc.OpenFiles
import Xv6.Proc.VmHalts
import Xv6.Proc.Isolation

/-!
# The descriptors of all processes

The kernel's calls together with `open`. In every state of every run the count of a file
is the number of descriptors of all processes that point to it, a slot without a live
process has none, and no call panics in `fileclose` or `filedup`. The functions of `vm.c`
and `proc.c` leave the files alone, apart from the loops of `fork` and `exit`.
-/

set_option autoImplicit false

namespace Xv6.Kern.Kernel
open Xv6.Mmu Xv6.Kalloc

def sysopen (k : Kernel) (cur : Fin NPROC) (found : Bool) (omode : BitVec 32) :
    Except Halt (Kernel × ℤ) := do
  let (ph, files, o, r) ← OpenFiles.sysopen k.phys k.files (k.ofile cur) found omode
  .ok ({ k with phys := ph, files := files, ofile := Function.update k.ofile cur o }, r)

end Xv6.Kern.Kernel

namespace Xv6.OpenFiles
open Xv6.Mmu Xv6.Kalloc Xv6.Paging Xv6.Table Xv6.Files Xv6.Halting Xv6.Refs Xv6.VmHalts
open Xv6.Kern Kernel

inductive Call where
  | op (op : Op)
  | openFile (found : Bool) (omode : BitVec 32)

/-- A call of a process; one that was killed exits instead. -/
def act (k : Kernel) (cur : Fin NPROC) : Call → Except Halt (Kernel × Ret)
  | .op op => step k cur op
  | .openFile found omode =>
    if (k.table.slot cur).killed ∧ (k.table.slot cur).chan = none then do
      let k ← k.exit cur
      .ok (k, .gone)
    else do
      let x ← k.sysopen cur found omode
      back cur x

def CanAct (k : Kernel) (i : Fin NPROC) : Call → Prop
  | .op op => CanStep k i op
  | .openFile _ _ => ((k.table.slot i).state = .runnable ∨ (k.table.slot i).state = .running) ∧
      (k.table.slot i).chan = none

theorem CanAct.live {k : Kernel} {i : Fin NPROC} {c : Call} (h : CanAct k i c) :
    (k.table.slot i).state.live = true := by
  cases c with
  | op op => exact canStep_live h
  | openFile found omode => rcases h.1 with hs | hs <;> rw [hs] <;> rfl

/-- How many descriptors of all processes point to a file. -/
def descriptors (ofile : Fin NPROC → Ofile) (f : Fin NFILE) : ℕ := ∑ i, number (ofile i) f

/-- Those of the processes other than `i`. -/
def rest (ofile : Fin NPROC → Ofile) (i : Fin NPROC) (f : Fin NFILE) : ℕ :=
  ∑ j ∈ Finset.univ.erase i, number (ofile j) f

theorem descriptors_split (ofile : Fin NPROC → Ofile) (i : Fin NPROC) (f : Fin NFILE) :
    descriptors ofile f = number (ofile i) f+rest ofile i f :=
  (Finset.add_sum_erase Finset.univ (fun j => number (ofile j) f) (Finset.mem_univ i)).symm

theorem rest_update (ofile : Fin NPROC → Ofile) (i : Fin NPROC) (o : Ofile) :
    rest (Function.update ofile i o) i = rest ofile i := by
  funext f
  refine Finset.sum_congr rfl fun j hj => ?_
  rw [Function.update_of_ne (Finset.ne_of_mem_erase hj)]

structure Slots (k : Kernel) : Prop where
  ref : ∀ f, (k.files.file f).ref = descriptors k.ofile f
  blank : ∀ f, (k.files.file f).ref = 0 → (k.files.file f).type = .none
  closed : ∀ i, (k.table.slot i).state.live = false → ∀ fd, k.ofile i fd = none

section
variable {k k' : Kernel} {i : Fin NPROC}

theorem Slots.put (h : Slots k) {o : Ofile} (ht : Tallied k'.files o (rest k.ofile i))
    (ho : k'.ofile = Function.update k.ofile i o)
    (hi : (k'.table.slot i).state.live = false → ∀ fd, o fd = none)
    (hlive : ∀ j, j ≠ i → (k'.table.slot j).state.live = false →
      (k.table.slot j).state.live = false) : Slots k' := by
  refine ⟨fun f => ?_,ht.blank,fun j hj fd => ?_⟩
  · rw [descriptors_split k'.ofile i, ho, rest_update, Function.update_self]
    exact ht.ref f
  · rw [ho]
    by_cases hji : j = i
    · subst hji
      rw [Function.update_self]
      exact hi hj fd
    · rw [Function.update_of_ne hji]
      exact h.closed j (hlive j hji hj) fd

theorem Slots.same (h : Slots k) (hf : k'.files = k.files) (ho : k'.ofile = k.ofile)
    (hlive : ∀ j, (k'.table.slot j).state.live = false → (k.table.slot j).state.live = false) :
    Slots k' := by
  refine ⟨fun f => ?_,fun f => ?_,fun j hj fd => ?_⟩
  · rw [hf, ho]
    exact h.ref f
  · rw [hf]
    exact h.blank f
  · rw [ho]
    exact h.closed j (hlive j hj) fd

theorem Slots.setFiles (h : Slots k) (hi : (k.table.slot i).state.live = true) {ph : Phys}
    {t : Ftable} {o : Ofile} (ht : Tallied t o (rest k.ofile i)) :
    Slots { k with phys := ph, files := t, ofile := Function.update k.ofile i o } := by
  refine h.put ht rfl (fun hd => ?_) (fun j _ hd => hd)
  rw [hi] at hd
  cases hd

end

/-! ## Runs -/

/-- A descriptor refers to an end of the pipe in frame `p`. -/
def Refers (k : Kernel) (p : ℕ) : Prop :=
  ∃ i fd f, k.ofile i fd = some f ∧ (k.files.file f).type = .pipe ∧ (k.files.file f).pipe = p

instance (k : Kernel) (p : ℕ) : Decidable (Refers k p) := inferInstanceAs (Decidable (∃ _ _ _, _))

def Call.isPipe : Call → Bool
  | .op .pipe => true
  | _ => false

/-- What a run has done with each frame: how often a `pipe` call has taken it off the free
list, and how often it has been put on that list by such a call or while a descriptor
referred to it. -/
structure Past where
  made : ℕ → ℕ
  freed : ℕ → ℕ

def Past.next (h : Past) (c : Call) (k k' : Kernel) : Past where
  made p := h.made p+
    if c.isPipe then k.phys.freelist.count p-k'.phys.freelist.count p else 0
  freed p := h.freed p+
    if c.isPipe ∨ Refers k p then k'.phys.freelist.count p-k.phys.freelist.count p else 0

end Xv6.OpenFiles
