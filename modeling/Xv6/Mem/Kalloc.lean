import Xv6.Mem.Mmu

/-!
# The physical page allocator

`kalloc` and `kfree` of `kalloc.c`, with the counter array `pg_refcount` of
`vm.c` and the bytes of the data pages. Frames are page-aligned by
construction, the free list is the list of frames reached from `kmem.freelist`,
and the counters are signed chars, so that an increment past 127 wraps.
-/

set_option autoImplicit false

namespace Xv6.Kalloc
open Xv6.Mmu

/-- Why the kernel stops: a call of `panic` with its text, or the dereference of
a null pointer, such as the entry that `walkpgdir` returns for a missing page
table. -/
inductive Halt where
  | panic (msg : String)
  | nullDeref
  deriving DecidableEq, Repr

structure Phys where
  freelist : List ℕ
  pgRefcount : ℕ → ℤ
  mem : ℕ → ℕ → UInt8

def kalloc (ph : Phys) : Phys × Option ℕ :=
  match ph.freelist with
  | [] => (ph, none)
  | f::fs => ({ ph with freelist := fs }, some f)

def Phys.fill (ph : Phys) (f : ℕ) (page : ℕ → UInt8) : Phys :=
  { ph with mem := Function.update ph.mem f page }

def writeBytes (page : ℕ → UInt8) (off : ℕ) (bytes : List UInt8) : ℕ → UInt8 :=
  fun i => if off ≤ i then bytes.getD (i-off) (page i) else page i

/-- `memmove` into the frame `f` at offset `off`. -/
def Phys.write (ph : Phys) (f off : ℕ) (bytes : List UInt8) : Phys :=
  ph.fill f (writeBytes (ph.mem f) off bytes)

def InRange (f : ℕ) : Prop := kernEnd ≤ f*PGSIZE ∧ f*PGSIZE < PHYSTOP

instance (f : ℕ) : Decidable (InRange f) := inferInstanceAs (Decidable (_ ∧ _))

def kfree (ph : Phys) (f : ℕ) : Except Halt Phys :=
  if InRange f then
    .ok { ph.fill f (fun _ => 1) with freelist := f::ph.freelist }
  else .error (.panic "kfree")

def freerange (ph : Phys) (vstart vend : ℕ) : Except Halt Phys :=
  (List.range' (PGROUNDUP vstart/PGSIZE) (vend/PGSIZE-PGROUNDUP vstart/PGSIZE)).foldlM kfree ph

/-- The value a signed char holds after an assignment. -/
def toChar (z : ℤ) : ℤ := (z+128)%256-128

def Phys.incRef (ph : Phys) (f : ℕ) : Phys :=
  { ph with pgRefcount := Function.update ph.pgRefcount f (toChar (ph.pgRefcount f+1)) }

def Phys.decRef (ph : Phys) (f : ℕ) : Phys :=
  { ph with pgRefcount := Function.update ph.pgRefcount f (toChar (ph.pgRefcount f-1)) }

@[simp] theorem incRef_freelist (ph : Phys) (f : ℕ) : (ph.incRef f).freelist = ph.freelist := rfl
@[simp] theorem incRef_mem (ph : Phys) (f : ℕ) : (ph.incRef f).mem = ph.mem := rfl
@[simp] theorem decRef_freelist (ph : Phys) (f : ℕ) : (ph.decRef f).freelist = ph.freelist := rfl
@[simp] theorem incRef_self (ph : Phys) (f : ℕ) :
    (ph.incRef f).pgRefcount f = toChar (ph.pgRefcount f+1) := Function.update_self ..

@[simp] theorem decRef_self (ph : Phys) (f : ℕ) :
    (ph.decRef f).pgRefcount f = toChar (ph.pgRefcount f-1) := Function.update_self ..

theorem incRef_other (ph : Phys) {f x : ℕ} (h : x ≠ f) :
    (ph.incRef f).pgRefcount x = ph.pgRefcount x := Function.update_of_ne h ..

theorem decRef_other (ph : Phys) {f x : ℕ} (h : x ≠ f) :
    (ph.decRef f).pgRefcount x = ph.pgRefcount x := Function.update_of_ne h ..

theorem toChar_of_small (z : ℤ) (h : -128 ≤ z) (h' : z ≤ 127) : toChar z = z := by
  unfold toChar
  omega

theorem inRange_lt {f : ℕ} (h : InRange f) : f < 2^20 := by
  unfold InRange PGSIZE PHYSTOP at h
  omega

theorem inRange_pos {f : ℕ} (h : InRange f) : 0 < f := by
  unfold InRange PGSIZE kernEnd at h
  omega

end Xv6.Kalloc
