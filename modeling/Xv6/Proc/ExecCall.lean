import Xv6.Proc.Exec

/-!
# The system call `exec`

`exec` with everything it touches: the inode it looks up and the log operation around the
reads, the stack pointer that the arguments leave, and the commitment to the new image with
its trap frame and name. The failures all end at the label `bad`, which undoes what the
call holds at that point. Memory, page directory and size are those of `image`.
-/

set_option autoImplicit false

namespace Xv6.ExecCall
open Xv6.Mmu Xv6.Kalloc Xv6.Paging Xv6.Uvm Xv6.Halting Xv6.Exec

/-- What `exec` replaces in the process. -/
structure Proc where
  pgdir : PageDir
  sz : ℕ
  eip : ℕ
  esp : ℕ
  name : List UInt8

/-- The memory, the calling process, and the inode and the log as far as `exec` uses them. -/
structure World where
  phys : Phys
  proc : Proc
  ref : ℕ
  locked : Bool
  outstanding : ℕ

def World.beginOp (s : World) : World := { s with outstanding := s.outstanding+1 }

def World.endOp (s : World) : World := { s with outstanding := s.outstanding-1 }

/-- `namei` has found the inode. -/
def World.namei (s : World) : World := { s with ref := s.ref+1 }

def World.ilock (s : World) : World := { s with locked := true }

def World.iunlockput (s : World) : World := { s with locked := false, ref := s.ref-1 }

/-- `pushArgs` with the stack pointer it ends at. -/
def pushBlock (ph : Phys) (d : PageDir) (sz : ℕ) (argv : List (List UInt8)) :
    Except Halt (Phys × Option ℕ) := do
  let (ph, r) ← pushStrings d argv 0 sz [] ph
  match r with
  | none => .ok (ph, none)
  | some (sp, ustack) =>
    let argc := ustack.length
    let block := [0xffffffff, argc, (sp+2^32-(argc+1)*4)%2^32]++ustack++[0]
    let sp := (sp+2^32-(3+argc+1)*4)%2^32
    let (ph, done) ← copyout ph d sp (block.flatMap word)
    .ok (ph, if done then some sp else none)

/-- `addStack` with the stack pointer. -/
def newStack (ph : Phys) (d : PageDir) (sz : ℕ) (argv : List (List UInt8)) :
    Except Halt (Phys × PageDir × Option (ℕ × ℕ)) := do
  let (ph, d, sz) ← allocuvm ph d (PGROUNDUP sz%2^32) ((PGROUNDUP sz%2^32+2*PGSIZE)%2^32)
  if sz = 0 then .ok (ph, d, none)
  else do
    let d ← clearpteu d (sz-2*PGSIZE)
    let (ph, r) ← pushBlock ph d sz argv
    .ok (ph, d, r.map fun sp => (sz, sp))

/-- The loop that finds the part of the path behind its last slash. -/
def lastPart : List UInt8 → List UInt8 → List UInt8
  | [], last => last
  | c::s, last => lastPart s (if c = 47 then s else last)

/-- `safestrcpy` into the sixteen bytes of `name`. -/
def progName (path : List UInt8) : List UInt8 := (lastPart path path).take 15

/-- The label `bad`, with the directory and the inode that are held there. -/
def World.bad (s : World) (pgdir : Option PageDir) (ip : Bool) : Except Halt (World × ℤ) := do
  let ph ← match pgdir with
    | none => .ok s.phys
    | some d => freevm s.phys d
  let s := { s with phys := ph }
  .ok (if ip then s.iunlockput.endOp else s, -1)

/-- `exec` on the bytes of the file that `namei` finds, `none` when it finds nothing. -/
def exec (s : World) (ip : Option (List UInt8)) (path : List UInt8) (argv : List (List UInt8)) :
    Except Halt (World × ℤ) :=
  let s := s.beginOp
  match ip with
  | none => .ok (s.endOp, -1)
  | some file =>
    let s := s.namei.ilock
    match readAll file 0 elfhdrSize with
    | none => s.bad none true
    | some elf =>
      if field elf 0 4 ≠ ELF_MAGIC then s.bad none true
      else do
        let (ph, d) ← setupkvm s.phys
        let s := { s with phys := ph }
        match d with
        | none => s.bad none true
        | some d => do
          let (ph, d, r) ← loadSegments file (field elf 44 2) (field elf 28 4) 0 s.phys d
          let s := { s with phys := ph }
          match r with
          | none => s.bad (some d) true
          | some sz => do
            let s := s.iunlockput.endOp
            let (ph, d, r) ← newStack s.phys d sz argv
            let s := { s with phys := ph }
            match r with
            | none => s.bad (some d) false
            | some (sz, sp) => do
              let ph ← freevm s.phys s.proc.pgdir
              .ok ({ s with phys := ph, proc := ⟨d, sz, field elf 24 4, sp, progName path⟩ }, 0)

/-! ## The memory is that of `image` -/

/-- What `image` and the caller see of the result. -/
def memory (x : World × ℤ) : Phys × ℤ × PageDir × ℕ :=
  (x.1.phys, x.2, x.1.proc.pgdir, x.1.proc.sz)

theorem pushBlock_pushArgs (ph : Phys) (d : PageDir) (sz : ℕ) (argv : List (List UInt8)) :
    (pushBlock ph d sz argv).map (fun x => (x.1, x.2.isSome)) = pushArgs ph d sz argv := by
  rw [pushBlock, pushArgs]
  cases pushStrings d argv 0 sz [] ph with
  | error e => rfl
  | ok x =>
    obtain ⟨ph1,_ | ⟨sp,ustack⟩⟩ := x
    · rfl
    · rw [ok_bind, ok_bind]
      dsimp only
      cases copyout ph1 d ((sp+2^32-(3+ustack.length+1)*4)%2^32)
        (([0xffffffff, ustack.length, (sp+2^32-(ustack.length+1)*4)%2^32]++ustack++[0]).flatMap word) with
      | error e => rfl
      | ok y =>
        obtain ⟨ph2,done⟩ := y
        cases done <;> rfl

theorem newStack_addStack (ph : Phys) (d : PageDir) (sz : ℕ) (argv : List (List UInt8)) :
    (newStack ph d sz argv).map (fun x => (x.1, x.2.1, x.2.2.map Prod.fst)) =
      addStack ph d sz argv := by
  rw [newStack, addStack]
  cases allocuvm ph d (PGROUNDUP sz%2^32) ((PGROUNDUP sz%2^32+2*PGSIZE)%2^32) with
  | error e => rfl
  | ok x =>
    obtain ⟨ph1,d1,sz1⟩ := x
    rw [ok_bind, ok_bind]
    dsimp only
    split
    · rfl
    · cases clearpteu d1 (sz1-2*PGSIZE) with
      | error e => rfl
      | ok d2 =>
        rw [ok_bind, ok_bind, ← pushBlock_pushArgs]
        cases pushBlock ph1 d2 sz1 argv with
        | error e => rfl
        | ok y =>
          obtain ⟨ph2,_ | sp⟩ := y <;> rfl

theorem bad_memory (s : World) (d : PageDir) (ip : Bool) :
    (s.bad (some d) ip).map memory =
      (do
        let ph ← freevm s.phys d
        .ok (ph, -1, s.proc.pgdir, s.proc.sz)) := by
  rw [World.bad]
  dsimp only
  cases freevm s.phys d with
  | error e => rfl
  | ok ph => cases ip <;> rfl

/-- `exec` does to the memory what `image` does, and frees the old directory when it
commits. -/
theorem exec_image (s : World) (file path : List UInt8) (argv : List (List UInt8)) :
    (exec s (some file) path argv).map memory = (do
      let (ph, r) ← image s.phys file argv
      match r with
      | none => .ok (ph, -1, s.proc.pgdir, s.proc.sz)
      | some (d, sz) => do
        let ph ← freevm ph s.proc.pgdir
        .ok (ph, 0, d, sz)) := by
  rw [exec, image]
  dsimp only
  cases readAll file 0 elfhdrSize with
  | none => rfl
  | some elf =>
    dsimp only
    split
    · rfl
    · rw [show (s.beginOp.namei.ilock).phys = s.phys from rfl]
      cases setupkvm s.phys with
      | error e => rfl
      | ok x =>
        obtain ⟨ph1,_ | d1⟩ := x
        · rfl
        · rw [ok_bind, ok_bind]
          dsimp only
          cases loadSegments file (field elf 44 2) (field elf 28 4) 0 ph1 d1 with
          | error e => rfl
          | ok y =>
            obtain ⟨ph2,d2,_ | sz⟩ := y
            · rw [ok_bind, ok_bind]
              dsimp only
              rw [bad_memory]
              dsimp only [World.beginOp, World.namei, World.ilock]
              cases freevm ph2 d2 <;> rfl
            · rw [ok_bind, ok_bind]
              dsimp only [World.iunlockput, World.endOp]
              rw [← newStack_addStack]
              cases newStack ph2 d2 sz argv with
              | error e => rfl
              | ok z =>
                obtain ⟨ph3,d3,_ | ⟨sz3,sp⟩⟩ := z
                · rw [ok_bind]
                  dsimp only
                  rw [bad_memory]
                  dsimp only [Except.map, World.beginOp, World.namei, World.ilock]
                  rw [ok_bind]
                  dsimp only [Option.map]
                  cases freevm ph3 d3 <;> rfl
                · rw [ok_bind]
                  dsimp only [Except.map, World.beginOp, World.namei, World.ilock]
                  rw [ok_bind]
                  dsimp only [Option.map]
                  rw [ok_bind]
                  dsimp only
                  cases freevm ph3 s.proc.pgdir <;> rfl

end Xv6.ExecCall
