import Xv6.Mem.Paging

/-!
# User address spaces

The functions of `vm.c` that build, grow, shrink, copy and repair the user part
of a page directory. A function that the source lets run into `panic`, or into
the null entry of a missing page table, halts here; a return value of zero or
minus one is an ordinary result.
-/

set_option autoImplicit false

namespace Xv6.Uvm
open Xv6.Mmu Xv6.Kalloc Xv6.Paging

/-- `if(--pg_refcount[pa >> PGSHIFT] == 0) kfree(P2V(pa))`. -/
def dropRef (ph : Phys) (f : ℕ) : Except Halt Phys :=
  if (ph.decRef f).pgRefcount f = 0 then kfree (ph.decRef f) f else .ok (ph.decRef f)

/-- The loop of `deallocuvm`. A missing page table moves `a` to the first page
of the next directory entry. -/
def deallocLoop (oldsz : ℕ) : ℕ → ℕ → Phys → PageDir → Except Halt (Phys × PageDir)
  | 0, _, ph, d => .ok (ph, d)
  | n+1, a, ph, d =>
    if a < oldsz then
      match d.walk a with
      | none => deallocLoop oldsz n (PGADDR (PDX a+1) 0 0-PGSIZE+PGSIZE) ph d
      | some p =>
        if has p PTE_P then
          if pteAddr p = 0#32 then .error (.panic "kfree")
          else do
            let ph ← dropRef ph (pteFrame p)
            deallocLoop oldsz n (a+PGSIZE) ph (d.setPte a 0#32)
        else deallocLoop oldsz n (a+PGSIZE) ph d
    else .ok (ph, d)

def deallocuvm (ph : Phys) (d : PageDir) (oldsz newsz : ℕ) :
    Except Halt (Phys × PageDir × ℕ) :=
  if oldsz ≤ newsz then .ok (ph, d, oldsz)
  else do
    let (ph, d) ← deallocLoop oldsz (oldsz/PGSIZE+1) (PGROUNDUP newsz) ph d
    .ok (ph, d, newsz)

def freevm (ph : Phys) (d : PageDir) : Except Halt Phys := do
  let (ph, d, _) ← deallocuvm ph d KERNBASE 0
  let ph ← ((List.range NPDENTRIES).filterMap
    (fun i => (d.pde i).map PageTable.frame)).foldlM kfree ph
  kfree ph d.frame

structure Kmap where
  virt : ℕ
  physStart : ℕ
  physEnd : ℕ
  perm : Pte

def kmap : List Kmap :=
  [⟨KERNBASE, 0, EXTMEM, PTE_W⟩,
   ⟨KERNLINK, KERNLINK-KERNBASE, kernData, 0#32⟩,
   ⟨KERNBASE+kernData, kernData, PHYSTOP, PTE_W⟩,
   ⟨DEVSPACE, DEVSPACE, 0, PTE_W⟩]

def kmapLoop : List Kmap → Phys → PageDir → Except Halt (Phys × Option PageDir)
  | [], ph, d => .ok (ph, some d)
  | k::ks, ph, d => do
    let (ph, d, done) ← mappages ph d k.virt ((k.physEnd+2^32-k.physStart)%2^32)
      (BitVec.ofNat 32 k.physStart) k.perm
    if done then kmapLoop ks ph d
    else do
      let ph ← freevm ph d
      .ok (ph, none)

def setupkvm (ph : Phys) : Except Halt (Phys × Option PageDir) :=
  match kalloc ph with
  | (ph, none) => .ok (ph, none)
  | (ph, some f) =>
    if DEVSPACE < KERNBASE+PHYSTOP then .error (.panic "PHYSTOP too high")
    else kmapLoop kmap ph ⟨f, fun _ => none⟩

/-- A failed `kalloc` is not checked: the `memset` faults before any process
runs, which `pagefault` answers with a panic. -/
def inituvm (ph : Phys) (d : PageDir) (init : List UInt8) : Except Halt (Phys × PageDir) :=
  if PGSIZE ≤ init.length then .error (.panic "inituvm: more than a page")
  else
    match kalloc ph with
    | (_, none) => .error (.panic "pagefault")
    | (ph, some f) => do
      let (ph, d, _) ← mappages (ph.fill f (fun _ => 0)) d 0 PGSIZE (physAddr f)
        (PTE_W ||| PTE_U)
      .ok ((ph.incRef f).write f 0 init, d)

def allocLoop (oldsz newsz : ℕ) : ℕ → ℕ → Phys → PageDir → Except Halt (Phys × PageDir × ℕ)
  | 0, _, ph, d => .ok (ph, d, newsz)
  | n+1, a, ph, d =>
    if a < newsz then
      match kalloc ph with
      | (ph, none) => do
        let (ph, d, _) ← deallocuvm ph d newsz oldsz
        .ok (ph, d, 0)
      | (ph, some f) => do
        let (ph, d, done) ← mappages (ph.fill f (fun _ => 0)) d a PGSIZE (physAddr f)
          (PTE_W ||| PTE_U)
        if done then allocLoop oldsz newsz n (a+PGSIZE) (ph.incRef f) d
        else do
          let (ph, d, _) ← deallocuvm ph d newsz oldsz
          let ph ← kfree ph f
          .ok (ph, d, 0)
    else .ok (ph, d, newsz)

def allocuvm (ph : Phys) (d : PageDir) (oldsz newsz : ℕ) :
    Except Halt (Phys × PageDir × ℕ) :=
  if KERNBASE ≤ newsz then .ok (ph, d, 0)
  else if newsz < oldsz then .ok (ph, d, oldsz)
  else allocLoop oldsz newsz (newsz/PGSIZE+1) (PGROUNDUP oldsz) ph d

def clearpteu (d : PageDir) (uva : ℕ) : Except Halt PageDir :=
  match d.walk uva with
  | none => .error (.panic "clearpteu")
  | some p => .ok (d.setPte uva (hideUser p))

/-- `freevm(d); return 0`, the label `bad` of both copying functions. -/
def abandon (ph : Phys) (d : PageDir) : Except Halt (Phys × Option PageDir) := do
  let ph ← freevm ph d
  .ok (ph, none)

/-- The loop of `copyuvm` at address `i` with `n` pages left. -/
def copyLoop (pgdir : PageDir) : ℕ → ℕ → Phys → PageDir → Except Halt (Phys × Option PageDir)
  | 0, _, ph, d => .ok (ph, some d)
  | n+1, i, ph, d =>
    match pgdir.walk i with
    | none => .error (.panic "copyuvm: pte should exist")
    | some p =>
      if has p PTE_P then
        match kalloc ph with
        | (ph, none) => abandon ph d
        | (ph, some f) => do
          let (ph, d, done) ← mappages (ph.fill f (ph.mem (pteFrame p))) d i PGSIZE
            (physAddr f) (pteFlags p)
          if done then copyLoop pgdir n (i+PGSIZE) ph d else abandon ph d
      else .error (.panic "copyuvm: page not present")

def pageCount (sz : ℕ) : ℕ := (sz+PGSIZE-1)/PGSIZE

def copyuvm (ph : Phys) (pgdir : PageDir) (sz : ℕ) : Except Halt (Phys × Option PageDir) := do
  let (ph, d) ← setupkvm ph
  match d with
  | none => .ok (ph, none)
  | some d => copyLoop pgdir (pageCount sz) 0 ph d

/-- The loop of `copyuvmcow`. The parent's entry loses `PTE_W` before the page
is mapped in the child, and gains `PTE_COW` only when that succeeded. -/
def cowLoop : ℕ → ℕ → Phys → PageDir → PageDir → Except Halt (Phys × PageDir × Option PageDir)
  | 0, _, ph, pgdir, d => .ok (ph, pgdir, some d)
  | n+1, i, ph, pgdir, d =>
    match pgdir.walk i with
    | none => .error (.panic "copyuvmcow: pte should exist")
    | some p =>
      if has p PTE_P then do
        let pgdir := pgdir.setPte i (protect p)
        let (ph, d, done) ← mappages ph d i PGSIZE (pteAddr (protect p)) (pteFlags (protect p))
        if done then
          cowLoop n (i+PGSIZE) (ph.incRef (pteFrame p))
            (pgdir.setPte i (markCow (protect p))) d
        else do
          let (ph, r) ← abandon ph d
          .ok (ph, pgdir, r)
      else .error (.panic "copyuvmcow: page not present")

def copyuvmcow (ph : Phys) (pgdir : PageDir) (sz : ℕ) :
    Except Halt (Phys × PageDir × Option PageDir) := do
  let (ph, d) ← setupkvm ph
  match d with
  | none => .ok (ph, pgdir, none)
  | some d => cowLoop (pageCount sz) 0 ph pgdir d

/-- `pagefault` for the current process; the flag says that it sets `killed`. -/
def pagefault (ph : Phys) (d : PageDir) (va : ℕ) : Except Halt (Phys × PageDir × Bool) :=
  if KERNBASE ≤ va then .ok (ph, d, true)
  else
    match d.walk va with
    | none => .ok (ph, d, true)
    | some p =>
      if !has p PTE_P || !has p PTE_U then .ok (ph, d, true)
      else if has p PTE_W then .error (.panic "pagefault writeable")
      else if ph.pgRefcount (pteFrame p) = 1 then .ok (ph, d.setPte va (reclaim p), false)
      else if 1 < ph.pgRefcount (pteFrame p) then
        match kalloc ph with
        | (ph, none) => .ok (ph, d, true)
        | (ph, some g) =>
          .ok (((ph.fill g (ph.mem (pteFrame p))).decRef (pteFrame p)).incRef g,
            d.setPte va (physAddr g ||| PTE_P ||| PTE_W ||| PTE_U), false)
      else .error (.panic "pagefault wrong refcount")

/-- `uva2ka`: the frame behind a user address. The entry is read without
testing the pointer, which is null when the page table is missing. -/
def uva2ka (d : PageDir) (uva : ℕ) : Except Halt (Option ℕ) :=
  match d.walk uva with
  | none => .error .nullDeref
  | some p => .ok (if has p PTE_P && has p PTE_U then some (pteFrame p) else none)

/-- The loop of `copyout`; each pass copies at least one byte, so `len` passes
are enough. -/
def copyoutLoop : ℕ → Phys → PageDir → ℕ → List UInt8 → Except Halt (Phys × Bool)
  | 0, ph, _, _, _ => .ok (ph, true)
  | n+1, ph, d, va, buf =>
    if buf = [] then .ok (ph, true)
    else do
      let va0 := PGROUNDDOWN va
      let ka ← uva2ka d va0
      match ka with
      | none => .ok (ph, false)
      | some f =>
        copyoutLoop n (ph.write f (va-va0) (buf.take (PGSIZE-(va-va0)))) d
          ((va0+PGSIZE)%2^32) (buf.drop (PGSIZE-(va-va0)))

def copyout (ph : Phys) (d : PageDir) (va : ℕ) (p : List UInt8) : Except Halt (Phys × Bool) :=
  copyoutLoop p.length ph d va p

/-- `readi` on a regular file: `none` for -1, else the bytes copied. -/
def readi (file : List UInt8) (off n : ℕ) : Option (List UInt8) :=
  if file.length < off ∨ 2^32 ≤ off+n then none else some ((file.drop off).take n)

def loadLoop (file : List UInt8) (offset sz : ℕ) :
    ℕ → ℕ → Phys → PageDir → ℕ → Except Halt (Phys × Bool)
  | 0, _, ph, _, _ => .ok (ph, true)
  | n+1, i, ph, d, addr =>
    match d.walk (addr+i) with
    | none => .error (.panic "loaduvm: address should exist")
    | some p =>
      match readi file ((offset+i)%2^32) (min (sz-i) PGSIZE) with
      | none => .ok (ph, false)
      | some bytes =>
        if bytes.length = min (sz-i) PGSIZE then
          loadLoop file offset sz n (i+PGSIZE) (ph.write (pteFrame p) 0 bytes) d addr
        else .ok (ph.write (pteFrame p) 0 bytes, false)

def loaduvm (ph : Phys) (d : PageDir) (addr : ℕ) (file : List UInt8) (offset sz : ℕ) :
    Except Halt (Phys × Bool) :=
  if addr%PGSIZE ≠ 0 then .error (.panic "loaduvm: addr must be page aligned")
  else loadLoop file offset sz (pageCount sz) 0 ph d addr

end Xv6.Uvm
