import Xv6.Mem.GrowSpec

/-!
# Open files and pipes

The file table of `file.c` and the pages of `pipe.c`. A pipe is a page taken
from the allocator; its two open ends are the two file structures that
`pipealloc` fills in, and the page goes back when both ends are closed. The
invariant `Pipes` ties the pages in use to the open ends, so that a page is
freed exactly once.
-/

set_option autoImplicit false

namespace Xv6.Files
open Xv6.Kalloc Xv6.Paging Xv6.Ledger Xv6.Halting Xv6.MapSpec

def NFILE : ℕ := 100
def NOFILE : ℕ := 16

inductive FdType where
  | none
  | pipe
  | inode
  deriving DecidableEq, Repr

structure File where
  type : FdType
  ref : ℕ
  writable : Bool
  pipe : ℕ

structure Pipe where
  readopen : Bool
  writeopen : Bool

def Pipe.opened (p : Pipe) (writable : Bool) : Bool := if writable then p.writeopen else p.readopen

def Pipe.close (p : Pipe) (writable : Bool) : Pipe :=
  if writable then { p with writeopen := false } else { p with readopen := false }

/-- The file table, and the pipe structure stored in each frame used as one. -/
structure Ftable where
  file : Fin NFILE → File
  pipe : ℕ → Pipe

def Ftable.set (t : Ftable) (f : Fin NFILE) (x : File) : Ftable :=
  { t with file := Function.update t.file f x }

def filealloc (t : Ftable) : Option (Ftable × Fin NFILE) :=
  ((List.finRange NFILE).find? (fun f => (t.file f).ref = 0)).map
    (fun f => (t.set f { t.file f with ref := 1 }, f))

def filedup (t : Ftable) (f : Fin NFILE) : Except Halt Ftable :=
  if (t.file f).ref < 1 then .error (.panic "filedup")
  else .ok (t.set f { t.file f with ref := (t.file f).ref+1 })

def pipeclose (ph : Phys) (t : Ftable) (p : ℕ) (writable : Bool) : Except Halt (Phys × Ftable) :=
  let q := (t.pipe p).close writable
  let t' := { t with pipe := Function.update t.pipe p q }
  if !q.readopen && !q.writeopen then do
    let ph ← kfree ph p
    .ok (ph, t')
  else .ok (ph, t')

/-- `fileclose`; dropping the inode of a file is the file system's part. -/
def fileclose (ph : Phys) (t : Ftable) (f : Fin NFILE) : Except Halt (Phys × Ftable) :=
  if (t.file f).ref < 1 then .error (.panic "fileclose")
  else if 0 < (t.file f).ref-1 then
    .ok (ph, t.set f { t.file f with ref := (t.file f).ref-1 })
  else
    match (t.file f).type with
    | .pipe => pipeclose ph (t.set f { t.file f with ref := 0, type := .none })
        (t.file f).pipe (t.file f).writable
    | _ => .ok (ph, t.set f { t.file f with ref := 0, type := .none })

/-- The stores of `pipealloc` once both files and the page are there. -/
def newPipe (t : Ftable) (f0 f1 : Fin NFILE) (p : ℕ) : Ftable :=
  let t := { t with pipe := Function.update t.pipe p ⟨true, true⟩ }
  let t := t.set f0 { t.file f0 with type := .pipe, writable := false, pipe := p }
  t.set f1 { t.file f1 with type := .pipe, writable := true, pipe := p }

def pipealloc (ph : Phys) (t : Ftable) :
    Except Halt (Phys × Ftable × Option (Fin NFILE × Fin NFILE)) :=
  match filealloc t with
  | none => .ok (ph, t, none)
  | some (t, f0) =>
    match filealloc t with
    | none => do
      let (ph, t) ← fileclose ph t f0
      .ok (ph, t, none)
    | some (t, f1) =>
      match kalloc ph with
      | (ph, none) => do
        let (ph, t) ← fileclose ph t f0
        let (ph, t) ← fileclose ph t f1
        .ok (ph, t, none)
      | (ph, some p) => .ok (ph, newPipe t f0 f1 p, some (f0, f1))

abbrev Ofile := Fin NOFILE → Option (Fin NFILE)

def fdalloc (o : Ofile) (f : Fin NFILE) : Option (Ofile × Fin NOFILE) :=
  ((List.finRange NOFILE).find? (fun fd => o fd = none)).map
    (fun fd => (Function.update o fd (some f), fd))

/-- `sys_pipe` after `argptr`; the numbers it stores through the user pointer
are stores of the process. -/
def syspipe (ph : Phys) (t : Ftable) (o : Ofile) :
    Except Halt (Phys × Ftable × Ofile × Option (Fin NOFILE × Fin NOFILE)) := do
  let (ph, t, r) ← pipealloc ph t
  match r with
  | none => .ok (ph, t, o, none)
  | some (rf, wf) =>
    match fdalloc o rf with
    | none => do
      let (ph, t) ← fileclose ph t rf
      let (ph, t) ← fileclose ph t wf
      .ok (ph, t, o, none)
    | some (o1, fd0) =>
      match fdalloc o1 wf with
      | none => do
        let (ph, t) ← fileclose ph t rf
        let (ph, t) ← fileclose ph t wf
        .ok (ph, t, Function.update o1 fd0 none, none)
      | some (o2, fd1) => .ok (ph, t, o2, some (fd0, fd1))

/-- `sys_close` on a descriptor. -/
def sysclose (ph : Phys) (t : Ftable) (o : Ofile) (fd : Fin NOFILE) :
    Except Halt (Phys × Ftable × Ofile × ℤ) :=
  match o fd with
  | none => .ok (ph, t, o, -1)
  | some f => do
    let (ph, t) ← fileclose ph t f
    .ok (ph, t, Function.update o fd none, 0)

def sysdup (t : Ftable) (o : Ofile) (fd : Fin NOFILE) : Except Halt (Ftable × Ofile × ℤ) :=
  match o fd with
  | none => .ok (t, o, -1)
  | some f =>
    match fdalloc o f with
    | none => .ok (t, o, -1)
    | some (o', fd') => do
      let t ← filedup t f
      .ok (t, o', fd'.val)

/-- The loop of `exit` that closes all open files. -/
def closeAll : List (Fin NOFILE) → Phys → Ftable → Ofile → Except Halt (Phys × Ftable × Ofile)
  | [], ph, t, o => .ok (ph, t, o)
  | fd::fds, ph, t, o => do
    let (ph, t, o, _) ← sysclose ph t o fd
    closeAll fds ph t o

/-- The loop of `fork` that duplicates the descriptors. -/
def dupAll (parent : Ofile) : List (Fin NOFILE) → Ftable → Ofile → Except Halt (Ftable × Ofile)
  | [], t, o => .ok (t, o)
  | fd::fds, t, o =>
    match parent fd with
    | none => dupAll parent fds t o
    | some f => do
      let t ← filedup t f
      dupAll parent fds t (Function.update o fd (some f))

/-- The frames in use as pipes are those with an open end, and every open end
belongs to one file. -/
structure Pipes (t : Ftable) (P : List ℕ) : Prop where
  idle : ∀ f, (t.file f).ref = 0 → (t.file f).type ≠ .pipe
  ends : ∀ f, (t.file f).type = .pipe → (t.file f).pipe ∈ P ∧
    (t.pipe (t.file f).pipe).opened (t.file f).writable = true
  unique : ∀ f f', (t.file f).type = .pipe → (t.file f').type = .pipe →
    (t.file f).pipe = (t.file f').pipe → (t.file f).writable = (t.file f').writable → f = f'
  backed : ∀ p ∈ P, ∀ w, (t.pipe p).opened w = true →
    ∃ f, (t.file f).type = .pipe ∧ (t.file f).pipe = p ∧ (t.file f).writable = w
  used : ∀ p ∈ P, ∃ w, (t.pipe p).opened w = true

theorem set_file (t : Ftable) (f f' : Fin NFILE) (x : File) :
    (t.set f x).file f' = if f' = f then x else t.file f' := by
  rw [Ftable.set]
  by_cases h : f' = f
  · subst h; simp
  · simp [h]

theorem close_opened (p : Pipe) (w w' : Bool) :
    (p.close w).opened w' = if w' = w then false else p.opened w' := by
  cases w <;> cases w' <;> simp [Pipe.close, Pipe.opened]

theorem Pipes.recount {t : Ftable} {P : List ℕ} (h : Pipes t P) (f : Fin NFILE) (r : ℕ)
    (hr : r ≠ 0) : Pipes (t.set f { t.file f with ref := r }) P := by
  have hsame : ∀ x, ((t.set f { t.file f with ref := r }).file x).type = (t.file x).type ∧
      ((t.set f { t.file f with ref := r }).file x).pipe = (t.file x).pipe ∧
      ((t.set f { t.file f with ref := r }).file x).writable = (t.file x).writable := by
    intro x
    rw [set_file]
    split
    · next hx => subst hx; exact ⟨rfl,rfl,rfl⟩
    · exact ⟨rfl,rfl,rfl⟩
  refine ⟨?_,?_,?_,?_,h.used⟩
  · intro x hx
    rw [(hsame x).1]
    rw [set_file] at hx
    split at hx
    · exact absurd hx hr
    · exact h.idle x hx
  · intro x hx
    rw [(hsame x).1] at hx
    rw [(hsame x).2.1, (hsame x).2.2]
    exact h.ends x hx
  · intro x y hx hy hp hw
    rw [(hsame x).1] at hx
    rw [(hsame y).1] at hy
    rw [(hsame x).2.1, (hsame y).2.1] at hp
    rw [(hsame x).2.2, (hsame y).2.2] at hw
    exact h.unique x y hx hy hp hw
  · intro p hp w hw
    obtain ⟨x,h1,h2,h3⟩ := h.backed p hp w hw
    exact ⟨x,by rw [(hsame x).1]; exact h1,by rw [(hsame x).2.1]; exact h2,
      by rw [(hsame x).2.2]; exact h3⟩

theorem Pipes.plain {t : Ftable} {P : List ℕ} (h : Pipes t P) {f : Fin NFILE} {x : File}
    (hf : (t.file f).type ≠ .pipe) (hx : x.type ≠ .pipe) : Pipes (t.set f x) P := by
  have hne : ∀ y, ((t.set f x).file y).type = .pipe → y ≠ f := by
    rintro y hy rfl
    rw [set_file, if_pos rfl] at hy
    exact hx hy
  have hold : ∀ y, y ≠ f → (t.set f x).file y = t.file y := by
    intro y hy
    rw [set_file, if_neg hy]
  refine ⟨?_,?_,?_,?_,h.used⟩
  · intro y hy hp
    rw [hold y (hne y hp)] at hy hp
    exact h.idle y hy hp
  · intro y hy
    have := hold y (hne y hy)
    rw [this] at hy ⊢
    exact h.ends y hy
  · intro y z hy hz
    have h1 := hold y (hne y hy)
    have h2 := hold z (hne z hz)
    rw [h1] at hy ⊢
    rw [h2] at hz ⊢
    exact h.unique y z hy hz
  · intro p hp w hw
    obtain ⟨y,h1,h2,h3⟩ := h.backed p hp w hw
    have hy : y ≠ f := by
      rintro rfl
      exact hf h1
    exact ⟨y,by rw [hold y hy]; exact h1,by rw [hold y hy]; exact h2,by rw [hold y hy]; exact h3⟩

/-- The table after the last close of a pipe end: one end fewer is open. -/
def dropEnd (t : Ftable) (f : Fin NFILE) : Ftable :=
  let p := (t.file f).pipe
  let q := (t.pipe p).close (t.file f).writable
  { t.set f { t.file f with ref := 0, type := .none } with pipe := Function.update t.pipe p q }

theorem dropEnd_file (t : Ftable) (f x : Fin NFILE) :
    (dropEnd t f).file x = if x = f then { t.file f with ref := 0, type := .none } else t.file x :=
  set_file t f x _

theorem dropEnd_opened (t : Ftable) (f : Fin NFILE) (p : ℕ) (w : Bool) :
    ((dropEnd t f).pipe p).opened w =
      if p = (t.file f).pipe ∧ w = (t.file f).writable then false else (t.pipe p).opened w := by
  dsimp only [dropEnd, Ftable.set]
  by_cases hp : p = (t.file f).pipe
  · subst hp
    rw [Function.update_self, close_opened]
    simp
  · rw [Function.update_of_ne hp]
    simp [hp]

theorem Pipes.dropEnd {t : Ftable} {P Q : List ℕ} (h : Pipes t P) (f : Fin NFILE)
    (hf : (t.file f).type = .pipe)
    (hQ : ∀ p, p ∈ Q ↔ p ∈ P ∧ ∃ w, ((dropEnd t f).pipe p).opened w = true) :
    Pipes (dropEnd t f) Q := by
  have hne : ∀ x, ((Files.dropEnd t f).file x).type = .pipe →
      x ≠ f ∧ (t.file x).type = .pipe := by
    intro x hx
    rw [dropEnd_file] at hx
    split at hx
    · cases hx
    · next hn => exact ⟨hn,hx⟩
  have hopen : ∀ x, x ≠ f → (t.file x).type = .pipe →
      ((Files.dropEnd t f).pipe (t.file x).pipe).opened (t.file x).writable = true := by
    intro x hx hp
    rw [dropEnd_opened, if_neg]
    · exact (h.ends x hp).2
    · rintro ⟨h1,h2⟩
      exact hx (h.unique x f hp hf h1 h2)
  refine ⟨?_,?_,?_,?_,?_⟩
  · intro x hx hp
    obtain ⟨hn,hp'⟩ := hne x hp
    rw [dropEnd_file, if_neg hn] at hx
    exact h.idle x hx hp'
  · intro x hx
    obtain ⟨hn,hp⟩ := hne x hx
    rw [dropEnd_file, if_neg hn]
    exact ⟨(hQ _).mpr ⟨(h.ends x hp).1,_,hopen x hn hp⟩,hopen x hn hp⟩
  · intro x y hx hy
    obtain ⟨hnx,hpx⟩ := hne x hx
    obtain ⟨hny,hpy⟩ := hne y hy
    rw [dropEnd_file, dropEnd_file, if_neg hnx, if_neg hny]
    exact h.unique x y hpx hpy
  · intro p hp w hw
    rw [dropEnd_opened] at hw
    split at hw
    · cases hw
    · next hpw =>
      obtain ⟨x,h1,h2,h3⟩ := h.backed p ((hQ p).mp hp).1 w hw
      have hx : x ≠ f := by
        rintro rfl
        exact hpw ⟨h2.symm,h3.symm⟩
      refine ⟨x,?_⟩
      rw [dropEnd_file, if_neg hx]
      exact ⟨h1,h2,h3⟩
  · intro p hp
    exact ((hQ p).mp hp).2

section
variable {g : Ghost} {ds : List PageDir} {own : List ℕ}

/-- Files and memory together: the pages of `P` are the pipes' and owned. -/
def Stock (g : Ghost) (ph : Phys) (ds : List PageDir) (own : List ℕ) (t : Ftable) : Prop :=
  ∃ P, Books g ph ds (P++own) ∧ Pipes t P

theorem opened_some (p : Pipe) : (∃ w, p.opened w = true) ↔ ¬ (!p.readopen && !p.writeopen) := by
  constructor
  · rintro ⟨w,hw⟩
    cases w <;> simp_all [Pipe.opened]
  · intro h
    cases hr : p.readopen with
    | true => exact ⟨false,hr⟩
    | false =>
      rw [hr] at h
      exact ⟨true,by simpa [Pipe.opened] using h⟩

theorem owned_nodup {ph : Phys} {P : List ℕ} (hb : Books g ph ds (P++own)) : P.Nodup := by
  rw [List.nodup_iff_count_le_one]
  intro x
  have h := hb.within x
  rw [held, kept, List.count_append] at h
  split at h <;> split at h <;> omega

theorem pipeclose_pipes {ph ph' : Phys} {t t' : Ftable} {f : Fin NFILE} {P : List ℕ}
    (hp : Pipes t P) (hn : P.Nodup) (ht : (t.file f).type = .pipe)
    (h : pipeclose ph (t.set f { t.file f with ref := 0, type := .none }) (t.file f).pipe
      (t.file f).writable = .ok (ph', t')) :
    (ph' = ph ∧ Pipes t' P) ∨ ∃ p Q, P.Perm (p::Q) ∧ kfree ph p = .ok ph' ∧ Pipes t' Q := by
  have hmem := (hp.ends f ht).1
  have hother : ∀ p, p ≠ (t.file f).pipe → p ∈ P → ∃ w, ((dropEnd t f).pipe p).opened w = true := by
    intro p hne hpP
    obtain ⟨w,hw⟩ := hp.used p hpP
    exact ⟨w,by rw [dropEnd_opened, if_neg (by tauto)]; exact hw⟩
  have hself : (dropEnd t f).pipe (t.file f).pipe =
      (t.pipe (t.file f).pipe).close (t.file f).writable := Function.update_self ..
  rw [pipeclose] at h
  dsimp only at h
  split at h
  · next hq =>
    rw [bind_ok] at h
    obtain ⟨ph1,h1,h2⟩ := h
    cases h2
    refine Or.inr ⟨_,_,List.perm_cons_erase hmem,h1,hp.dropEnd f ht (fun p => ?_)⟩
    rw [hn.mem_erase_iff]
    constructor
    · rintro ⟨hne,hpP⟩
      exact ⟨hpP,hother p hne hpP⟩
    · rintro ⟨hpP,hw⟩
      refine ⟨?_,hpP⟩
      rintro rfl
      rw [hself, opened_some] at hw
      exact hw hq
  · next hq =>
    cases h
    refine Or.inl ⟨rfl,hp.dropEnd f ht (fun p => ?_)⟩
    constructor
    · intro hpP
      refine ⟨hpP,?_⟩
      by_cases hne : p = (t.file f).pipe
      · subst hne
        rw [hself, opened_some]
        exact hq
      · exact hother p hne hpP
    · exact And.left

theorem fileclose_pipes {ph ph' : Phys} {t t' : Ftable} {f : Fin NFILE} {P : List ℕ}
    (hp : Pipes t P) (hn : P.Nodup) (h : fileclose ph t f = .ok (ph', t')) :
    (ph' = ph ∧ Pipes t' P) ∨ ∃ p Q, P.Perm (p::Q) ∧ kfree ph p = .ok ph' ∧ Pipes t' Q := by
  rw [fileclose] at h
  split at h
  · cases h
  · split at h
    · next hr =>
      cases h
      exact Or.inl ⟨rfl,hp.recount f _ (by omega)⟩
    · split at h
      · next ht => exact pipeclose_pipes hp hn ht h
      · next ht =>
        cases h
        exact Or.inl ⟨rfl,hp.plain ht (fun h => by cases h)⟩

theorem fileclose_stock {ph ph' : Phys} {t t' : Ftable} {f : Fin NFILE}
    (hs : Stock g ph ds own t) (h : fileclose ph t f = .ok (ph', t')) :
    Stock g ph' ds own t' ∧ ∀ x, 0 < maps ds x → ph'.mem x = ph.mem x := by
  obtain ⟨P,hb,hp⟩ := hs
  rcases fileclose_pipes hp (owned_nodup hb) h with ⟨rfl,hp'⟩ | ⟨p,Q,hPQ,hfree,hp'⟩
  · exact ⟨⟨P,hb,hp'⟩,fun _ _ => rfl⟩
  · have hb1 : Books g ph ds (p::(Q++own)) := hb.perm (List.Perm.refl _) (hPQ.append_right own)
    obtain ⟨hk,hb2⟩ := hb1.kfree
    rw [hk] at hfree
    cases hfree
    exact ⟨⟨Q,hb2,hp'⟩,fun x hx => hb1.kfree_mem hx⟩

theorem filealloc_pipes {t t' : Ftable} {f : Fin NFILE} {P : List ℕ} (hp : Pipes t P)
    (h : filealloc t = some (t', f)) : Pipes t' P ∧ (t'.file f).type ≠ .pipe ∧
      (t'.file f).ref = 1 ∧ ∀ x, (t'.file x).ref = 0 → x ≠ f := by
  rw [filealloc, Option.map_eq_some_iff] at h
  obtain ⟨x,hx,he⟩ := h
  cases he
  have h0 : (t.file f).ref = 0 := by
    have := List.find?_some hx
    simpa using this
  refine ⟨hp.recount f 1 (by decide),?_,?_,?_⟩
  · rw [set_file, if_pos rfl]
    exact hp.idle f h0
  · rw [set_file, if_pos rfl]
  · rintro x hx rfl
    rw [set_file, if_pos rfl] at hx
    cases hx

theorem newPipe_file (t : Ftable) {f0 f1 : Fin NFILE} (p : ℕ) (hne : f1 ≠ f0) (x : Fin NFILE) :
    (newPipe t f0 f1 p).file x =
      if x = f1 then { t.file f1 with type := .pipe, writable := true, pipe := p }
      else if x = f0 then { t.file f0 with type := .pipe, writable := false, pipe := p }
      else t.file x := by
  rw [newPipe, set_file, set_file, if_neg hne, set_file]

theorem Pipes.newPipe {t : Ftable} {P : List ℕ} {f0 f1 : Fin NFILE} {p : ℕ} (h : Pipes t P)
    (hne : f1 ≠ f0) (hp : p ∉ P) (h0 : (t.file f0).ref ≠ 0) (h1 : (t.file f1).ref ≠ 0)
    (t0 : (t.file f0).type ≠ .pipe) (t1 : (t.file f1).type ≠ .pipe) :
    Pipes (newPipe t f0 f1 p) (p::P) := by
  have hfile := newPipe_file t p hne
  have hpipe : (Files.newPipe t f0 f1 p).pipe = Function.update t.pipe p ⟨true, true⟩ := rfl
  have hopen : ∀ w, ((Files.newPipe t f0 f1 p).pipe p).opened w = true := by
    intro w
    rw [hpipe, Function.update_self]
    cases w <;> rfl
  have hold : ∀ q ∈ P, (Files.newPipe t f0 f1 p).pipe q = t.pipe q := by
    intro q hq
    rw [hpipe, Function.update_of_ne]
    rintro rfl
    exact hp hq
  -- a pipe end is one of the two new ones or an old one of another pipe
  have hkind : ∀ x, ((Files.newPipe t f0 f1 p).file x).type = .pipe →
      (x = f1 ∧ ((Files.newPipe t f0 f1 p).file x).pipe = p ∧
        ((Files.newPipe t f0 f1 p).file x).writable = true) ∨
      (x = f0 ∧ ((Files.newPipe t f0 f1 p).file x).pipe = p ∧
        ((Files.newPipe t f0 f1 p).file x).writable = false) ∨
      ((t.file x).type = .pipe ∧ (Files.newPipe t f0 f1 p).file x = t.file x ∧
        ((Files.newPipe t f0 f1 p).file x).pipe ≠ p) := by
    intro x hx
    rw [hfile] at hx ⊢
    by_cases x1 : x = f1
    · rw [if_pos x1]
      exact Or.inl ⟨x1,rfl,rfl⟩
    · rw [if_neg x1] at hx ⊢
      by_cases x0 : x = f0
      · rw [if_pos x0]
        exact Or.inr (Or.inl ⟨x0,rfl,rfl⟩)
      · rw [if_neg x0] at hx ⊢
        refine Or.inr (Or.inr ⟨hx,rfl,?_⟩)
        rintro rfl
        exact hp (h.ends x hx).1
  refine ⟨?_,?_,?_,?_,?_⟩
  · intro x hx
    rw [hfile] at hx ⊢
    split at hx
    · exact absurd hx h1
    · split at hx
      · exact absurd hx h0
      · next hx1 hx0 => rw [if_neg hx1, if_neg hx0]; exact h.idle x hx
  · intro x hx
    rcases hkind x hx with ⟨-,hx1,-⟩ | ⟨-,hx1,-⟩ | ⟨hx0,hx1,-⟩
    · rw [hx1]; exact ⟨List.mem_cons_self,hopen _⟩
    · rw [hx1]; exact ⟨List.mem_cons_self,hopen _⟩
    · rw [hx1]
      obtain ⟨hm,ho⟩ := h.ends x hx0
      exact ⟨List.mem_cons_of_mem p hm,by rw [hold _ hm]; exact ho⟩
  · intro x y hx hy hxy hw
    rcases hkind x hx with ⟨rfl,hx1,hx2⟩ | ⟨rfl,hx1,hx2⟩ | ⟨hx0,hx1,hx2⟩ <;>
      rcases hkind y hy with ⟨rfl,hy1,hy2⟩ | ⟨rfl,hy1,hy2⟩ | ⟨hy0,hy1,hy2⟩
    · rfl
    · rw [hx2, hy2] at hw; cases hw
    · exact absurd (hxy.symm.trans hx1) hy2
    · rw [hx2, hy2] at hw; cases hw
    · rfl
    · exact absurd (hxy.symm.trans hx1) hy2
    · exact absurd (hxy.trans hy1) hx2
    · exact absurd (hxy.trans hy1) hx2
    · rw [hx1, hy1] at hxy hw
      exact h.unique x y hx0 hy0 hxy hw
  · intro q hq w hw
    rcases List.mem_cons.mp hq with rfl | hq
    · cases w with
      | true => exact ⟨f1,by rw [hfile, if_pos rfl]; exact ⟨rfl,rfl,rfl⟩⟩
      | false =>
        refine ⟨f0,?_⟩
        rw [hfile, if_neg (Ne.symm hne), if_pos rfl]
        exact ⟨rfl,rfl,rfl⟩
    · rw [hold q hq] at hw
      obtain ⟨x,hx,hq',hw'⟩ := h.backed q hq w hw
      have x1 : x ≠ f1 := by
        rintro rfl
        exact t1 hx
      have x0 : x ≠ f0 := by
        rintro rfl
        exact t0 hx
      exact ⟨x,by rw [hfile, if_neg x1, if_neg x0]; exact ⟨hx,hq',hw'⟩⟩
  · intro q hq
    rcases List.mem_cons.mp hq with rfl | hq
    · exact ⟨true,hopen true⟩
    · obtain ⟨w,hw⟩ := h.used q hq
      exact ⟨w,by rw [hold q hq]; exact hw⟩

theorem filealloc_next {t t1 : Ftable} {f0 f1 : Fin NFILE} (h0 : (t.file f0).ref = 1)
    (h : filealloc t = some (t1, f1)) : f1 ≠ f0 ∧ t1.file f0 = t.file f0 := by
  rw [filealloc, Option.map_eq_some_iff] at h
  obtain ⟨x,hx,he⟩ := h
  cases he
  have hr : (t.file f1).ref = 0 := by
    have := List.find?_some hx
    simpa using this
  have hne : f1 ≠ f0 := by
    rintro rfl
    omega
  exact ⟨hne,by rw [set_file, if_neg (Ne.symm hne)]⟩

theorem pipealloc_stock {ph ph' : Phys} {t t' : Ftable} {r : Option (Fin NFILE × Fin NFILE)}
    (hs : Stock g ph ds own t) (h : pipealloc ph t = .ok (ph', t', r)) :
    Stock g ph' ds own t' := by
  rw [pipealloc] at h
  split at h
  · cases h
    exact hs
  · next t0 f0 hf0 =>
    obtain ⟨P,hb,hp⟩ := hs
    obtain ⟨hp0,ht0,hr0,-⟩ := filealloc_pipes hp hf0
    split at h
    · rw [bind_ok] at h
      obtain ⟨⟨ph1,t1⟩,h1,h2⟩ := h
      cases h2
      exact (fileclose_stock ⟨P,hb,hp0⟩ h1).1
    · next t1 f1 hf1 =>
      obtain ⟨hp1,ht1,hr1,-⟩ := filealloc_pipes hp0 hf1
      obtain ⟨hne,hsame⟩ := filealloc_next hr0 hf1
      rcases kalloc_cases ph with ⟨-,hk⟩ | ⟨p,fs,hl,hk⟩
      · rw [hk] at h
        dsimp only at h
        rw [bind_ok] at h
        obtain ⟨⟨ph2,t2⟩,h2,h⟩ := h
        dsimp only at h
        rw [bind_ok] at h
        obtain ⟨⟨ph3,t3⟩,h3,h4⟩ := h
        cases h4
        exact (fileclose_stock (fileclose_stock ⟨P,hb,hp1⟩ h2).1 h3).1
      · rw [hk] at h
        cases h
        have hb1 := hb.kalloc hl
        have hnot : p ∉ P := by
          intro hin
          have h1 := (hb1.idle (f := p) (by simp [kept])).2.1
          have h2 := List.count_pos_iff.mpr hin
          simp only [kept, List.count_cons_self, List.count_append] at h1
          omega
        exact ⟨p::P,hb1,hp1.newPipe hne hnot (by rw [hsame]; omega) (by omega)
          (by rw [hsame]; exact ht0) ht1⟩

theorem syspipe_stock {ph ph' : Phys} {t t' : Ftable} {o o' : Ofile}
    {r : Option (Fin NOFILE × Fin NOFILE)} (hs : Stock g ph ds own t)
    (h : syspipe ph t o = .ok (ph', t', o', r)) : Stock g ph' ds own t' := by
  rw [syspipe, bind_ok] at h
  obtain ⟨⟨ph1,t1,q⟩,h1,h⟩ := h
  have hs1 := pipealloc_stock hs h1
  have hclose : ∀ {rf wf : Fin NFILE} {ofin : Ofile}, (do
      let (ph, t) ← fileclose ph1 t1 rf
      let (ph, t) ← fileclose ph t wf
      (.ok (ph, t, ofin, none) : Except Halt (Phys × Ftable × Ofile ×
        Option (Fin NOFILE × Fin NOFILE)))) = .ok (ph', t', o', r) → Stock g ph' ds own t' := by
    intro rf wf ofin h
    rw [bind_ok] at h
    obtain ⟨⟨ph2,t2⟩,h2,h⟩ := h
    dsimp only at h
    rw [bind_ok] at h
    obtain ⟨⟨ph3,t3⟩,h3,h4⟩ := h
    cases h4
    exact (fileclose_stock (fileclose_stock hs1 h2).1 h3).1
  cases q with
  | none =>
    cases h
    exact hs1
  | some w =>
    obtain ⟨rf,wf⟩ := w
    dsimp only at h
    split at h
    · exact hclose h
    · split at h
      · exact hclose h
      · cases h
        exact hs1

theorem sysclose_stock {ph ph' : Phys} {t t' : Ftable} {o o' : Ofile} {fd : Fin NOFILE} {r : ℤ}
    (hs : Stock g ph ds own t) (h : sysclose ph t o fd = .ok (ph', t', o', r)) :
    Stock g ph' ds own t' ∧ ∀ x, 0 < maps ds x → ph'.mem x = ph.mem x := by
  rw [sysclose] at h
  split at h
  · cases h
    exact ⟨hs,fun _ _ => rfl⟩
  · rw [bind_ok] at h
    obtain ⟨⟨ph1,t1⟩,h1,h2⟩ := h
    cases h2
    exact fileclose_stock hs h1

theorem closeAll_stock {l : List (Fin NOFILE)} {ph ph' : Phys} {t t' : Ftable} {o o' : Ofile}
    (hs : Stock g ph ds own t) (h : closeAll l ph t o = .ok (ph', t', o')) :
    Stock g ph' ds own t' ∧ ∀ x, 0 < maps ds x → ph'.mem x = ph.mem x := by
  induction l generalizing ph t o with
  | nil =>
    cases h
    exact ⟨hs,fun _ _ => rfl⟩
  | cons fd l ih =>
    rw [closeAll, bind_ok] at h
    obtain ⟨⟨ph1,t1,o1,r⟩,h1,h⟩ := h
    obtain ⟨hs1,hm1⟩ := sysclose_stock hs h1
    obtain ⟨hs2,hm2⟩ := ih hs1 h
    exact ⟨hs2,fun x hx => (hm2 x hx).trans (hm1 x hx)⟩

theorem filedup_pipes {t t' : Ftable} {f : Fin NFILE} {P : List ℕ} (hp : Pipes t P)
    (h : filedup t f = .ok t') : Pipes t' P := by
  rw [filedup] at h
  split at h
  · cases h
  · cases h
    exact hp.recount f _ (by omega)

theorem sysdup_pipes {t t' : Ftable} {o o' : Ofile} {fd : Fin NOFILE} {r : ℤ} {P : List ℕ}
    (hp : Pipes t P) (h : sysdup t o fd = .ok (t', o', r)) : Pipes t' P := by
  rw [sysdup] at h
  split at h
  · cases h
    exact hp
  · split at h
    · cases h
      exact hp
    · rw [bind_ok] at h
      obtain ⟨t1,h1,h2⟩ := h
      cases h2
      exact filedup_pipes hp h1

theorem dupAll_pipes {parent : Ofile} {l : List (Fin NOFILE)} {t t' : Ftable} {o o' : Ofile}
    {P : List ℕ} (hp : Pipes t P) (h : dupAll parent l t o = .ok (t', o')) : Pipes t' P := by
  induction l generalizing t o with
  | nil =>
    cases h
    exact hp
  | cons fd l ih =>
    rw [dupAll] at h
    split at h
    · exact ih hp h
    · rw [bind_ok] at h
      obtain ⟨t1,h1,h⟩ := h
      exact ih (filedup_pipes hp h1) h

end

end Xv6.Files
