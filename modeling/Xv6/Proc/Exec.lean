import Xv6.Mem.CopySpec

/-!
# Building a program image

`exec` of `exec.c` up to the point of commitment: it reads the ELF header and
the program headers from the bytes of the file, grows and fills a new address
space, adds the guard page and the stack and pushes the arguments. Every failure
takes the path to the label `bad`, which frees the new directory.
-/

set_option autoImplicit false

namespace Xv6.Exec
open Xv6.Mmu Xv6.Kalloc Xv6.Paging Xv6.Ledger Xv6.Uvm Xv6.Halting Xv6.MapSpec Xv6.FreeSpec
open Xv6.GrowSpec

def MAXARG : ℕ := 32
def ELF_MAGIC : ℕ := 0x464C457F
def ELF_PROG_LOAD : ℕ := 1
def elfhdrSize : ℕ := 52
def proghdrSize : ℕ := 32

/-- A little-endian number of `n` bytes at offset `off` of a structure. -/
def field (bytes : List UInt8) (off n : ℕ) : ℕ :=
  ((bytes.drop off).take n).foldr (fun b r => b.toNat+256*r) 0

structure Proghdr where
  type : ℕ
  off : ℕ
  vaddr : ℕ
  filesz : ℕ
  memsz : ℕ

def proghdr (bytes : List UInt8) : Proghdr :=
  ⟨field bytes 0 4, field bytes 4 4, field bytes 8 4, field bytes 16 4, field bytes 20 4⟩

/-- A read of a whole structure, `none` when `readi` comes back short. -/
def readAll (file : List UInt8) (off n : ℕ) : Option (List UInt8) :=
  (readi file off n).bind (fun bytes => if bytes.length = n then some bytes else none)

/-- One program header: the new size of the image, or `none` for `goto bad`. -/
def loadSegment (file : List UInt8) (h : Proghdr) (sz : ℕ) (ph : Phys) (d : PageDir) :
    Except Halt (Phys × PageDir × Option ℕ) :=
  if h.type ≠ ELF_PROG_LOAD then .ok (ph, d, some sz)
  else if h.memsz < h.filesz then .ok (ph, d, none)
  else if (h.vaddr+h.memsz)%2^32 < h.vaddr then .ok (ph, d, none)
  else do
    let (ph, d, sz) ← allocuvm ph d sz ((h.vaddr+h.memsz)%2^32)
    if sz = 0 ∨ h.vaddr%PGSIZE ≠ 0 then .ok (ph, d, none)
    else do
      let (ph, done) ← loaduvm ph d h.vaddr file h.off h.filesz
      .ok (ph, d, if done then some sz else none)

/-- The loop over the program headers, with `n` of them left. -/
def loadSegments (file : List UInt8) :
    ℕ → ℕ → ℕ → Phys → PageDir → Except Halt (Phys × PageDir × Option ℕ)
  | 0, _, sz, ph, d => .ok (ph, d, some sz)
  | n+1, off, sz, ph, d =>
    match readAll file off proghdrSize with
    | none => .ok (ph, d, none)
    | some bytes => do
      let (ph, d, r) ← loadSegment file (proghdr bytes) sz ph d
      match r with
      | none => .ok (ph, d, none)
      | some sz => loadSegments file n ((off+proghdrSize)%2^32) sz ph d

def word (n : ℕ) : List UInt8 :=
  [UInt8.ofNat n, UInt8.ofNat (n/2^8), UInt8.ofNat (n/2^16), UInt8.ofNat (n/2^24)]

/-- The loop that pushes the argument strings; the stack pointers come out in
order, `none` stands for `goto bad`. -/
def pushStrings (d : PageDir) :
    List (List UInt8) → ℕ → ℕ → List ℕ → Phys → Except Halt (Phys × Option (ℕ × List ℕ))
  | [], _, sp, ustack, ph => .ok (ph, some (sp, ustack))
  | arg::args, argc, sp, ustack, ph =>
    if MAXARG ≤ argc then .ok (ph, none)
    else do
      let sp := (sp+2^32-(arg.length+1))%2^32/4*4
      let (ph, done) ← copyout ph d sp (arg++[0])
      if done then pushStrings d args (argc+1) sp (ustack++[sp]) ph else .ok (ph, none)

/-- The argument block: fake return address, `argc`, the `argv` pointer and the
null-terminated pointers. -/
def pushArgs (ph : Phys) (d : PageDir) (sz : ℕ) (argv : List (List UInt8)) :
    Except Halt (Phys × Bool) := do
  let (ph, r) ← pushStrings d argv 0 sz [] ph
  match r with
  | none => .ok (ph, false)
  | some (sp, ustack) =>
    let argc := ustack.length
    let block := [0xffffffff, argc, (sp+2^32-(argc+1)*4)%2^32]++ustack++[0]
    copyout ph d ((sp+2^32-(3+argc+1)*4)%2^32) (block.flatMap word)

/-- From the guard page to the arguments. -/
def addStack (ph : Phys) (d : PageDir) (sz : ℕ) (argv : List (List UInt8)) :
    Except Halt (Phys × PageDir × Option ℕ) := do
  let (ph, d, sz) ← allocuvm ph d (PGROUNDUP sz%2^32) ((PGROUNDUP sz%2^32+2*PGSIZE)%2^32)
  if sz = 0 then .ok (ph, d, none)
  else do
    let d ← clearpteu d (sz-2*PGSIZE)
    let (ph, done) ← pushArgs ph d sz argv
    .ok (ph, d, if done then some sz else none)

/-- The new address space and its size, or `none` after `bad`. -/
def image (ph : Phys) (file : List UInt8) (argv : List (List UInt8)) :
    Except Halt (Phys × Option (PageDir × ℕ)) :=
  match readAll file 0 elfhdrSize with
  | none => .ok (ph, none)
  | some elf =>
    if field elf 0 4 ≠ ELF_MAGIC then .ok (ph, none)
    else do
      let (ph, d) ← setupkvm ph
      match d with
      | none => .ok (ph, none)
      | some d => do
        let (ph, d, r) ← loadSegments file (field elf 44 2) (field elf 28 4) 0 ph d
        match r with
        | none => do
          let ph ← freevm ph d
          .ok (ph, none)
        | some sz => do
          let (ph, d, r) ← addStack ph d sz argv
          match r with
          | none => do
            let ph ← freevm ph d
            .ok (ph, none)
          | some sz => .ok (ph, some (d, sz))

/-- A step that writes into pages and nothing else. -/
def WritesOnly (ph ph' : Phys) : Prop :=
  ph'.freelist = ph.freelist ∧ ph'.pgRefcount = ph.pgRefcount

theorem WritesOnly.trans {ph ph' ph'' : Phys} (h : WritesOnly ph ph') (h' : WritesOnly ph' ph'') :
    WritesOnly ph ph'' := ⟨h'.1.trans h.1,h'.2.trans h.2⟩

theorem writesOnly_write (ph : Phys) (f off : ℕ) (bytes : List UInt8) :
    WritesOnly ph (ph.write f off bytes) := ⟨rfl,rfl⟩

theorem Books.writes {g : Ghost} {ph ph' : Phys} {ds : List PageDir} {own : List ℕ}
    (hb : Books g ph ds own) (h : WritesOnly ph ph') : Books g ph' ds own :=
  hb.relist h.2 (fun x => by rw [kept, kept, h.1])

theorem loadLoop_writes {file : List UInt8} {offset sz n i addr : ℕ} {ph ph' : Phys}
    {d : PageDir} {r : Bool} (h : loadLoop file offset sz n i ph d addr = .ok (ph', r)) :
    WritesOnly ph ph' := by
  induction n generalizing i ph with
  | zero =>
    cases h
    exact ⟨rfl,rfl⟩
  | succ n ih =>
    rw [loadLoop] at h
    split at h
    · cases h
    · split at h
      · cases h
        exact ⟨rfl,rfl⟩
      · split at h
        · exact (writesOnly_write ph _ _ _).trans (ih h)
        · cases h
          exact writesOnly_write ph _ _ _

theorem loaduvm_writes {file : List UInt8} {offset sz addr : ℕ} {ph ph' : Phys}
    {d : PageDir} {r : Bool} (h : loaduvm ph d addr file offset sz = .ok (ph', r)) :
    WritesOnly ph ph' := by
  rw [loaduvm] at h
  split at h
  · cases h
  · exact loadLoop_writes h

theorem copyoutLoop_writes {n va : ℕ} {buf : List UInt8} {ph ph' : Phys} {d : PageDir} {r : Bool}
    (h : copyoutLoop n ph d va buf = .ok (ph', r)) : WritesOnly ph ph' := by
  induction n generalizing va buf ph with
  | zero =>
    cases h
    exact ⟨rfl,rfl⟩
  | succ n ih =>
    rw [copyoutLoop] at h
    split at h
    · cases h
      exact ⟨rfl,rfl⟩
    · dsimp only at h
      rw [bind_ok] at h
      obtain ⟨ka,-,h⟩ := h
      cases ka with
      | none =>
        cases h
        exact ⟨rfl,rfl⟩
      | some f => exact (writesOnly_write ph _ _ _).trans (ih h)

theorem pushStrings_writes {d : PageDir} {argv : List (List UInt8)} {argc sp : ℕ}
    {ustack : List ℕ} {ph ph' : Phys} {r : Option (ℕ × List ℕ)}
    (h : pushStrings d argv argc sp ustack ph = .ok (ph', r)) : WritesOnly ph ph' := by
  induction argv generalizing argc sp ustack ph with
  | nil =>
    cases h
    exact ⟨rfl,rfl⟩
  | cons arg args ih =>
    rw [pushStrings] at h
    split at h
    · cases h
      exact ⟨rfl,rfl⟩
    · dsimp only at h
      rw [bind_ok] at h
      obtain ⟨⟨ph1,done⟩,h1,h⟩ := h
      have hw := copyoutLoop_writes h1
      dsimp only at h
      split at h
      · exact hw.trans (ih h)
      · cases h
        exact hw

theorem pushArgs_writes {ph ph' : Phys} {d : PageDir} {sz : ℕ} {argv : List (List UInt8)}
    {r : Bool} (h : pushArgs ph d sz argv = .ok (ph', r)) : WritesOnly ph ph' := by
  rw [pushArgs, bind_ok] at h
  obtain ⟨⟨ph1,q⟩,h1,h⟩ := h
  have hw := pushStrings_writes h1
  cases q with
  | none =>
    cases h
    exact hw
  | some w => exact hw.trans (copyoutLoop_writes h)

section
variable {g : Ghost} {ds : List PageDir} {own : List ℕ} {file : List UInt8}
  {argv : List (List UInt8)} {ph ph' : Phys} {d d' : PageDir} {n off sz s : ℕ} {r : Option ℕ}

theorem clearpteu_books {ph : Phys} {d d' : PageDir} {uva : ℕ} (hk : uva < KERNBASE)
    (hw : g.watch false → g.watch true) (hb : Books g ph (d::ds) own)
    (h : clearpteu d uva = .ok d') : Books g ph (d'::ds) own := by
  rw [clearpteu] at h
  split at h
  · cases h
  · next p hp =>
    cases h
    have hv := page_lt hk
    have hleaf : d.leaf (uva/PGSIZE*PGSIZE) = p := by rw [leaf_page, leaf_of_walk hp]
    refine hb.relabel hk hp (hideUser_P p) (hideUser_frame p) ?_ ?_
    · intro hP hW
      rw [hideUser_P] at hP
      rw [hideUser_W] at hW
      have := hb.priv d (by simp) _ hv
      rw [hleaf] at this
      exact this hP hW
    · intro hP hW hu
      rw [hideUser_P] at hP
      rw [hideUser_W] at hW
      have := hb.ro d (by simp) _ hv
      rw [hleaf] at this
      apply this hP hW
      rw [hideUser_U] at hu
      cases has p PTE_U
      · exact hu
      · exact hw hu

theorem loadSegment_cases {h : Proghdr} (he : loadSegment file h sz ph d = .ok (ph', d', r)) :
    (ph' = ph ∧ d' = d ∧ (r = some sz ∨ r = none)) ∨
    ∃ ph1 s, allocuvm ph d sz ((h.vaddr+h.memsz)%2^32) = .ok (ph1, d', s) ∧
      (ph' = ph1 ∧ r = none ∨ ∃ done, s ≠ 0 ∧
        loaduvm ph1 d' h.vaddr file h.off h.filesz = .ok (ph', done) ∧
        r = if done then some s else none) := by
  rw [loadSegment] at he
  split at he
  · cases he
    exact Or.inl ⟨rfl,rfl,Or.inl rfl⟩
  · split at he
    · cases he
      exact Or.inl ⟨rfl,rfl,Or.inr rfl⟩
    · split at he
      · cases he
        exact Or.inl ⟨rfl,rfl,Or.inr rfl⟩
      · obtain ⟨⟨ph1,d1,s⟩,h1,he⟩ := bind_ok.mp he
        refine Or.inr ?_
        dsimp only at he
        split at he
        · cases he
          exact ⟨_,s,h1,Or.inl ⟨rfl,rfl⟩⟩
        · next h0 =>
          obtain ⟨⟨ph2,done⟩,h2,h3⟩ := bind_ok.mp he
          cases h3
          exact ⟨ph1,s,h1,Or.inr ⟨done,fun hs => h0 (Or.inl hs),h2,rfl⟩⟩

theorem loadSegments_cases (he : loadSegments file (n+1) off sz ph d = .ok (ph', d', r)) :
    (ph' = ph ∧ d' = d ∧ r = none) ∨
    ∃ h ph1 d1 q, loadSegment file h sz ph d = .ok (ph1, d1, q) ∧
      (q = none ∧ ph' = ph1 ∧ d' = d1 ∧ r = none ∨ ∃ s off', q = some s ∧
        loadSegments file n off' s ph1 d1 = .ok (ph', d', r)) := by
  rw [loadSegments] at he
  split at he
  · cases he
    exact Or.inl ⟨rfl,rfl,rfl⟩
  · obtain ⟨⟨ph1,d1,_ | s⟩,h1,he⟩ := bind_ok.mp he
    · cases he
      exact Or.inr ⟨_,_,_,none,h1,Or.inl ⟨rfl,rfl,rfl,rfl⟩⟩
    · exact Or.inr ⟨_,ph1,d1,some s,h1,Or.inr ⟨s,_,rfl,he⟩⟩

theorem addStack_cases (he : addStack ph d sz argv = .ok (ph', d', r)) :
    ∃ ph1 d1 s, allocuvm ph d (PGROUNDUP sz%2^32) ((PGROUNDUP sz%2^32+2*PGSIZE)%2^32) =
        .ok (ph1, d1, s) ∧
      (s = 0 ∧ ph' = ph1 ∧ d' = d1 ∧ r = none ∨ ∃ done, s ≠ 0 ∧
        clearpteu d1 (s-2*PGSIZE) = .ok d' ∧ pushArgs ph1 d' s argv = .ok (ph', done) ∧
        r = if done then some s else none) := by
  obtain ⟨⟨ph1,d1,s⟩,h1,he⟩ := bind_ok.mp he
  refine ⟨ph1,d1,s,h1,?_⟩
  dsimp only at he
  split at he
  · next h0 =>
    cases he
    exact Or.inl ⟨h0,rfl,rfl,rfl⟩
  · next h0 =>
    obtain ⟨d2,h2,he⟩ := bind_ok.mp he
    obtain ⟨⟨ph3,done⟩,h3,h4⟩ := bind_ok.mp he
    cases h4
    exact Or.inr ⟨done,h0,h2,h3,rfl⟩

theorem image_cases {q : Option (PageDir × ℕ)} (he : image ph file argv = .ok (ph', q)) :
    (q = none ∧ (ph' = ph ∨ setupkvm ph = .ok (ph', none))) ∨
    ∃ ph1 d1 n off ph2 d2 s, setupkvm ph = .ok (ph1, some d1) ∧
      loadSegments file n off 0 ph1 d1 = .ok (ph2, d2, s) ∧
      (s = none ∧ q = none ∧ freevm ph2 d2 = .ok ph' ∨ ∃ sz ph3 d3 s3, s = some sz ∧
        addStack ph2 d2 sz argv = .ok (ph3, d3, s3) ∧
        (s3 = none ∧ q = none ∧ freevm ph3 d3 = .ok ph' ∨
        ∃ sz3, s3 = some sz3 ∧ ph' = ph3 ∧ q = some (d3, sz3))) := by
  rw [image] at he
  split at he
  · cases he
    exact Or.inl ⟨rfl,Or.inl rfl⟩
  · split at he
    · cases he
      exact Or.inl ⟨rfl,Or.inl rfl⟩
    · obtain ⟨⟨ph1,_ | d1⟩,h1,he⟩ := bind_ok.mp he
      · cases he
        exact Or.inl ⟨rfl,Or.inr h1⟩
      · obtain ⟨⟨ph2,d2,_ | sz⟩,h2,he⟩ := bind_ok.mp he
        · obtain ⟨ph3,h3,h4⟩ := bind_ok.mp he
          cases h4
          exact Or.inr ⟨ph1,d1,_,_,ph2,d2,none,h1,h2,Or.inl ⟨rfl,rfl,h3⟩⟩
        · refine Or.inr ⟨ph1,d1,_,_,ph2,d2,some sz,h1,h2,Or.inr ?_⟩
          obtain ⟨⟨ph3,d3,_ | sz3⟩,h3,he⟩ := bind_ok.mp he
          · obtain ⟨ph4,h4,h5⟩ := bind_ok.mp he
            cases h5
            exact ⟨sz,ph3,d3,none,rfl,h3,Or.inl ⟨rfl,rfl,h4⟩⟩
          · cases he
            exact ⟨sz,_,_,some sz3,rfl,h3,Or.inr ⟨sz3,rfl,rfl,rfl⟩⟩

/-! ## Sizes -/

theorem loadSegment_size {h : Proghdr} (hsz : sz < KERNBASE)
    (he : loadSegment file h sz ph d = .ok (ph', d', some s)) : s < KERNBASE := by
  rcases loadSegment_cases he with ⟨-,-,hr | hr⟩ | ⟨ph1,t,h1,⟨-,hr⟩ | ⟨done,h0,-,hr⟩⟩
  · cases hr
    exact hsz
  · cases hr
  · cases hr
  · cases done <;> cases hr
    have := allocuvm_size h1
    omega

theorem loadSegments_size (hsz : sz < KERNBASE)
    (he : loadSegments file n off sz ph d = .ok (ph', d', some s)) : s < KERNBASE := by
  induction n generalizing off sz ph d with
  | zero =>
    cases he
    exact hsz
  | succ n ih =>
    rcases loadSegments_cases he with ⟨-,-,h0⟩ | ⟨h,ph1,d1,q,h1,⟨-,-,-,h0⟩ | ⟨t,off',rfl,he⟩⟩
    · cases h0
    · cases h0
    · exact ih (loadSegment_size hsz h1) he

theorem addStack_size (hsz : sz < KERNBASE)
    (he : addStack ph d sz argv = .ok (ph', d', some s)) : s < KERNBASE := by
  obtain ⟨ph1,d1,t,h1,⟨-,-,-,hr⟩ | ⟨done,h0,-,-,hr⟩⟩ := addStack_cases he
  · cases hr
  · cases done <;> cases hr
    have := allocuvm_size h1
    unfold PGROUNDUP PGSIZE KERNBASE at *
    omega

theorem image_size (he : image ph file argv = .ok (ph', some (d, s))) : s < KERNBASE := by
  rcases image_cases he with ⟨h0,-⟩ |
    ⟨ph1,d1,n,off,ph2,d2,q,-,h2,⟨-,h0,-⟩ | ⟨sz,ph3,d3,q3,rfl,h3,⟨-,h0,-⟩ | ⟨sz3,rfl,-,h0⟩⟩⟩
  · cases h0
  · cases h0
  · cases h0
  · cases h0
    exact addStack_size (loadSegments_size (by decide) h2) h3

/-! ## The ledger -/

theorem loadSegment_books {h : Proghdr} (hlen : ds.length ≤ 126) (hb : Books g ph (d::ds) own)
    (he : loadSegment file h sz ph d = .ok (ph', d', r)) : Books g ph' (d'::ds) own := by
  rcases loadSegment_cases he with ⟨rfl,rfl,-⟩ | ⟨ph1,s,h1,⟨rfl,-⟩ | ⟨done,-,h2,-⟩⟩
  · exact hb
  · exact allocuvm_books hlen hb h1
  · exact Books.writes (allocuvm_books hlen hb h1) (loaduvm_writes h2)

theorem loadSegments_books (hlen : ds.length ≤ 126) (hb : Books g ph (d::ds) own)
    (he : loadSegments file n off sz ph d = .ok (ph', d', r)) : Books g ph' (d'::ds) own := by
  induction n generalizing off sz ph d with
  | zero =>
    cases he
    exact hb
  | succ n ih =>
    rcases loadSegments_cases he with
      ⟨rfl,rfl,-⟩ | ⟨h,ph1,d1,q,h1,⟨-,rfl,rfl,-⟩ | ⟨s,off',-,he⟩⟩
    · exact hb
    · exact loadSegment_books hlen hb h1
    · exact ih (loadSegment_books hlen hb h1) he

theorem addStack_books (hlen : ds.length ≤ 126) (hw : g.watch false → g.watch true)
    (hsz : sz < KERNBASE) (hb : Books g ph (d::ds) own)
    (he : addStack ph d sz argv = .ok (ph', d', r)) : Books g ph' (d'::ds) own := by
  obtain ⟨ph1,d1,s,h1,⟨-,rfl,rfl,-⟩ | ⟨done,h0,h2,h3,-⟩⟩ := addStack_cases he
  · exact allocuvm_books hlen hb h1
  · have hs : s < KERNBASE := by
      have := allocuvm_size h1
      unfold PGROUNDUP PGSIZE KERNBASE at *
      omega
    exact Books.writes (clearpteu_books (by omega) hw (allocuvm_books hlen hb h1) h2)
      (pushArgs_writes h3)

theorem image_books {q : Option (PageDir × ℕ)} (hlen : ds.length ≤ 126)
    (hw : g.watch false → g.watch true) (hb : Books g ph ds own)
    (he : image ph file argv = .ok (ph', q)) : Books g ph' ((q.map Prod.fst).toList++ds) own := by
  have hbad : ∀ {ph1 : Phys} {d : PageDir}, Books g ph1 (d::ds) own → freevm ph1 d = .ok ph' →
      Books g ph' ds own := by
    intro ph1 d hb1 h
    obtain ⟨ph3,h4,hb3,-⟩ := freevm_books hlen hb1
    rw [h] at h4
    cases h4
    exact hb3
  rcases image_cases he with ⟨rfl,rfl | h1⟩ | ⟨ph1,d1,n,off,ph2,d2,s,h1,h2,hend⟩
  · exact hb
  · exact (setupkvm_none hlen hb h1).1
  · have hb2 := loadSegments_books hlen ((setupkvm_some h1).books _ _ _ hb) h2
    rcases hend with ⟨-,rfl,h3⟩ | ⟨sz,ph3,d3,s3,rfl,h3,hend⟩
    · exact hbad hb2 h3
    · have hb3 := addStack_books hlen hw (loadSegments_size (by decide) h2) hb2 h3
      rcases hend with ⟨-,rfl,h4⟩ | ⟨sz3,-,rfl,rfl⟩
      · exact hbad hb3 h4
      · exact hb3

end

/-! ## Panics -/

end Xv6.Exec
