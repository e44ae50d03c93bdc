import Xv6.Proc.Calls

/-!
# The kernel invariant

Between steps the ledger holds for the directories of all slots with an address
space, and kernel stacks, pipes, processor stacks and the kernel's own directory
own their frames. Each system call keeps the invariant; plain `fork` changes the
ghosts, every other step leaves them alone.
-/

set_option autoImplicit false

namespace Xv6.Kern
open Xv6.Mmu Xv6.Kalloc Xv6.Paging Xv6.Uvm Xv6.Table Xv6.Files Xv6.Ledger Xv6.Tally Xv6.Halting
open Xv6.MapSpec Xv6.FreeSpec Xv6.GrowSpec Kernel

def space (k : Kernel) (i : Fin NPROC) : Option PageDir :=
  (k.table.spaces i).bind (fun _ => k.pgdir i)

def dirs (k : Kernel) : List PageDir := gather (space k)

def others (k : Kernel) (i : Fin NPROC) : List PageDir := gather (Function.update (space k) i none)

def kstacks (k : Kernel) : List ℕ := gather k.kstack

/-- Frames given out at boot and never returned. -/
def fixed (k : Kernel) : List ℕ := k.cpuStacks++k.kpgdir.frames

structure KInv (g : Ghost) (k : Kernel) : Prop where
  stock : Stock g k.phys (dirs k) (kstacks k++fixed k) k.files
  space : ∀ i n, k.table.spaces i = some n →
    (k.pgdir i).isSome ∧ (k.kstack i).isSome ∧ n < KERNBASE
  idle : ∀ i, k.table.spaces i = none → k.kstack i = none

theorem others_length (k : Kernel) (i : Fin NPROC) : (others k i).length ≤ 64 := gather_length _

theorem dirs_length (k : Kernel) : (dirs k).length ≤ 64 := gather_length _

theorem spaces_slot {t : Ptable} {i : Fin NPROC} (h : (t.slot i).state.hasSpace = true) :
    t.spaces i = some (t.slot i).sz := by
  rw [Ptable.spaces, if_pos h]

theorem spaces_has {t : Ptable} {i : Fin NPROC} {n : ℕ} (h : t.spaces i = some n) :
    (t.slot i).state.hasSpace = true := by
  rw [Ptable.spaces] at h
  split at h
  · next hs => exact hs
  · cases h

theorem canStep_space {k : Kernel} {i : Fin NPROC} {op : Op} (h : CanStep k i op) :
    (k.table.slot i).state.hasSpace = true := by
  rcases h.1 with h | h <;> rw [h] <;> rfl

theorem KInv.split {g : Ghost} {k : Kernel} (h : KInv g k) {i : Fin NPROC} {n : ℕ}
    (hn : k.table.spaces i = some n) :
    ∃ d, k.pgdir i = some d ∧ k.dir i = .ok d ∧ (dirs k).Perm (d::others k i) := by
  obtain ⟨d,hd⟩ := Option.isSome_iff_exists.mp (h.space i n hn).1
  refine ⟨d,hd,by rw [Kernel.dir, hd],?_⟩
  exact gather_swap (by rw [Kern.space, hn, hd]; rfl) (fun _ _ => rfl)

theorem Stock.perm {g : Ghost} {ph : Phys} {ds es : List PageDir} {own own' : List ℕ}
    {t : Ftable} (h : Stock g ph ds own t) (hd : ds.Perm es) (ho : own.Perm own') :
    Stock g ph es own' t := by
  obtain ⟨P,hb,hp⟩ := h
  exact ⟨P,hb.perm hd (ho.append_left P),hp⟩

theorem Stock.map {g g' : Ghost} {ph ph' : Phys} {ds ds' : List PageDir} {own own' : List ℕ}
    {t : Ftable} (h : Stock g ph ds own t)
    (hb : ∀ P, Books g ph ds (P++own) → Books g' ph' ds' (P++own')) : Stock g' ph' ds' own' t := by
  obtain ⟨P,h1,h2⟩ := h
  exact ⟨P,hb P h1,h2⟩

theorem space_retable {k : Kernel} {t : Ptable} (ht : t.spaces = k.table.spaces) :
    Kern.space { k with table := t } = Kern.space k := by
  funext i
  simp only [Kern.space, ht]

theorem KInv.retable {g : Ghost} {k : Kernel} (h : KInv g k) {t : Ptable}
    (ht : t.spaces = k.table.spaces) : KInv g { k with table := t } := by
  refine ⟨?_,?_,?_⟩
  · have := h.stock
    rwa [dirs, ← space_retable ht] at this
  · intro i n hi
    rw [ht] at hi
    exact h.space i n hi
  · intro i hi
    rw [ht] at hi
    exact h.idle i hi

theorem KInv.setDir {g : Ghost} {k : Kernel} (h : KInv g k) {i : Fin NPROC} {n : ℕ}
    (hn : k.table.spaces i = some n) {ph : Phys} {d : PageDir}
    (hs : Stock g ph (d::others k i) (kstacks k++fixed k) k.files) :
    KInv g (k.setDir i ph d) := by
  have hperm : (dirs (k.setDir i ph d)).Perm (d::others k i) := by
    apply gather_swap
    · simp [Kern.space, Kernel.setDir, hn]
    · intro j hj
      simp [Kern.space, Kernel.setDir, Function.update_of_ne hj]
  refine ⟨Stock.perm hs hperm.symm (List.Perm.refl _),?_,h.idle⟩
  intro j m hj
  have hk := h.space j m hj
  refine ⟨?_,hk.2⟩
  dsimp only [Kernel.setDir]
  by_cases hji : j = i
  · subst hji
    simp
  · rw [Function.update_of_ne hji]
    exact hk.1

theorem KInv.setSz {g : Ghost} {k : Kernel} (h : KInv g k) {i : Fin NPROC} {n : ℕ}
    (hn : n < KERNBASE) (hi : (k.table.slot i).state.hasSpace = true) :
    KInv g { k with table := k.table.setSz i n } := by
  have hsp : ∀ j, (k.table.setSz i n).spaces j =
      if j = i then some n else k.table.spaces j := by
    intro j
    rw [Ptable.spaces, Ptable.setSz, Ptable.set_slot]
    by_cases hj : j = i
    · subst hj
      simp [hi]
    · simp [hj, Ptable.spaces]
  have hs : Kern.space { k with table := k.table.setSz i n } = Kern.space k := by
    funext j
    simp only [Kern.space, hsp]
    split
    · next hj => subst hj; rw [spaces_slot hi]; rfl
    · rfl
  refine ⟨?_,?_,?_⟩
  · have := h.stock
    rwa [dirs, ← hs] at this
  · intro j m hj
    dsimp only at hj
    rw [hsp] at hj
    split at hj
    · next hji =>
      subst hji
      cases hj
      have := h.space j _ (spaces_slot hi)
      exact ⟨this.1,this.2.1,hn⟩
    · exact h.space j m hj
  · intro j hj
    dsimp only at hj
    rw [hsp] at hj
    split at hj
    · cases hj
    · exact h.idle j hj

theorem KInv.setFiles {g : Ghost} {k : Kernel} (h : KInv g k) {ph : Phys} {t : Ftable}
    {o : Fin NPROC → Ofile} (hs : Stock g ph (dirs k) (kstacks k++fixed k) t) :
    KInv g { k with phys := ph, files := t, ofile := o } :=
  ⟨hs,h.space,h.idle⟩

theorem exit_inv {g : Ghost} {k k' : Kernel} {i : Fin NPROC} (h : KInv g k)
    (hi : (k.table.slot i).state.hasSpace = true) (he : k.exit i = .ok k') : KInv g k' := by
  obtain ⟨-,ph,t,o,h1,rfl⟩ := exit_cases he
  exact (h.setFiles (closeAll_stock h.stock h1).1).retable (Ptable.exit_spaces hi)

theorem sbrk_inv {g : Ghost} {k k' : Kernel} {i : Fin NPROC} {n r : ℤ} (h : KInv g k)
    (hi : (k.table.slot i).state.hasSpace = true) (he : k.sbrk i n = .ok (k', r)) :
    KInv g k' := by
  have hn := spaces_slot hi
  have hsz := (h.space i _ hn).2.2
  obtain ⟨d,hd,-,hp⟩ := h.split hn
  have hlen := others_length k i
  rcases sbrk_cases he with ⟨-,rfl,-⟩ | ⟨d',ph,d1,s,-,hd',h1,hend⟩
  · exact h
  rw [hd] at hd'
  cases hd'
  have hs := Stock.perm h.stock hp (List.Perm.refl _)
  have hb : Stock g ph (d1::others k i) (kstacks k++fixed k) k.files := by
    refine Stock.map hs (fun P hb => ?_)
    rw [resize] at h1
    split at h1
    · exact allocuvm_books (by omega) hb h1
    · exact (deallocuvm_books (by omega) (by omega) hb h1).1
  have hk1 := h.setDir hn hb
  rcases hend with ⟨-,rfl,-⟩ | ⟨-,rfl,-⟩
  · exact hk1
  · refine hk1.setSz ?_ hi
    rw [resize] at h1
    split at h1
    · rcases allocuvm_size h1 with h0 | h0
      · omega
      · omega
    · have := MapSpec.deallocuvm_size h1
      omega

/-- The state after `allocproc` found slot `p` and took frame `f`. -/
def claimed (k : Kernel) (p : Fin NPROC) (f : ℕ) (fs : List ℕ) : Kernel :=
  { k with phys := { k.phys with freelist := fs }, table := k.table.claim p,
           kstack := Function.update k.kstack p (some f) }

theorem claim_spaces {t : Ptable} {p : Fin NPROC} (hp : (t.slot p).state = .unused) :
    (t.claim p).spaces = t.spaces := by
  have : (t.set p { t.slot p with state := .embryo, pid := t.nextpid }).spaces = t.spaces :=
    Ptable.set_spaces (by rw [hp]; rfl) rfl
  exact this

theorem allocproc_some {k : Kernel} {p : Fin NPROC} {f : ℕ} {fs : List ℕ}
    (hp : k.table.findUnused = some p) (hl : k.phys.freelist = f::fs) :
    k.allocproc = (claimed k p f fs, some p) := by
  rw [Kernel.allocproc, hp, kalloc, hl]
  rfl

theorem KInv.restack {g : Ghost} {k : Kernel} (h : KInv g k) {s : Fin NPROC → Option ℕ}
    (hs : ∀ j, s j = k.kstack j ∨ s j = none ∧ k.table.spaces j = none) :
    KInv g { k with kstack := s } := by
  have : s = k.kstack := by
    funext j
    rcases hs j with hj | ⟨hj,hn⟩
    · exact hj
    · rw [hj, h.idle j hn]
  rw [this]
  exact h

theorem spaces_unused {t : Ptable} {p : Fin NPROC} (h : (t.slot p).state = .unused) :
    t.spaces p = none := by
  rw [Ptable.spaces, h]
  rfl

theorem freeStack_eq {k k' : Kernel} {p : Fin NPROC} {f : ℕ} (hf : k.kstack p = some f)
    (h : k.freeStack p = .ok k') : ∃ ph, kfree k.phys f = .ok ph ∧
      k' = { k with phys := ph, kstack := Function.update k.kstack p none } := by
  rw [Kernel.freeStack, hf] at h
  dsimp only at h
  rw [bind_ok] at h
  obtain ⟨ph,h1,h2⟩ := h
  cases h2
  exact ⟨ph,h1,rfl⟩

/-- The invariant for a state with the old spaces and stacks in which only the
directory of `i` has changed. -/
theorem KInv.refork {g g' : Ghost} {k k' : Kernel} (h : KInv g k) {i : Fin NPROC} {n : ℕ}
    {d' : PageDir} (hn : k.table.spaces i = some n) (ht : k'.table.spaces = k.table.spaces)
    (hk : k'.kstack = k.kstack)
    (hoff : ∀ j, j ≠ i → k'.pgdir j = k.pgdir j ∨ k.table.spaces j = none)
    (hi : k'.pgdir i = some d')
    (hs : Stock g' k'.phys (d'::others k i) (kstacks k++fixed k') k'.files) : KInv g' k' := by
  have hperm : (dirs k').Perm (d'::others k i) := by
    apply gather_swap
    · rw [Kern.space, ht, hn, hi]
      rfl
    · intro j hj
      rw [Kern.space, Kern.space, ht]
      rcases hoff j hj with hp | hp
      · rw [hp]
      · rw [hp]
        rfl
  refine ⟨?_,?_,?_⟩
  · rw [kstacks, hk]
    exact Stock.perm hs hperm.symm (List.Perm.refl _)
  · intro j m hj
    rw [ht] at hj
    have := h.space j m hj
    rw [hk]
    refine ⟨?_,this.2⟩
    by_cases hji : j = i
    · rw [hji, hi]
      rfl
    · rcases hoff j hji with hp | hp
      · rw [hp]
        exact this.1
      · rw [hp] at hj
        cases hj
  · intro j hj
    rw [ht] at hj
    rw [hk]
    exact h.idle j hj

def forked (k : Kernel) (p i : Fin NPROC) (f : ℕ) (fs : List ℕ) (ph : Phys) (d' c : PageDir)
    (t : Ftable) (o : Ofile) : Kernel :=
  let k1 := (claimed k p f fs).setDir i ph d'
  { k1 with table := k1.table.launch p i, pgdir := Function.update k1.pgdir p (some c),
            files := t, ofile := Function.update k1.ofile p o }

theorem forked_spaces {k : Kernel} {p i : Fin NPROC} {f : ℕ} {fs : List ℕ} {ph : Phys}
    {d' c : PageDir} {t : Ftable} {o : Ofile} (hpi : p ≠ i) (j : Fin NPROC) :
    (forked k p i f fs ph d' c t o).table.spaces j =
      if j = p then some (k.table.slot i).sz else k.table.spaces j := by
  by_cases hj : j = p
  · subst hj
    simp [forked, claimed, Kernel.setDir, Ptable.launch, Ptable.claim, Ptable.set,
      Ptable.spaces, ProcState.hasSpace, Function.update_of_ne (Ne.symm hpi)]
  · simp [forked, claimed, Kernel.setDir, Ptable.launch, Ptable.claim, Ptable.set,
      Ptable.spaces, hj]

def unforked (k : Kernel) (p i : Fin NPROC) (f : ℕ) (ph : Phys) (d' : PageDir) : Kernel :=
  { k with phys := ph, table := (k.table.claim p).setState p .unused,
           pgdir := Function.update (Function.update k.pgdir i (some d')) p none,
           kstack := Function.update (Function.update k.kstack p (some f)) p none }

/-- How a fork ends: no slot, no frame for the stack, no copy, or a child. -/
inductive Forks (copy : Phys → PageDir → ℕ → Except Halt (Phys × PageDir × Option PageDir))
    (k : Kernel) (i : Fin NPROC) : Kernel → ℤ → Prop where
  | full (hu : k.table.findUnused = none) : Forks copy k i k (-1)
  | noStack {p : Fin NPROC} (hu : k.table.findUnused = some p) (hl : k.phys.freelist = []) :
      Forks copy k i { k with table := (k.table.claim p).setState p .unused,
                              kstack := Function.update k.kstack p none } (-1)
  | noCopy {p : Fin NPROC} {f : ℕ} {fs : List ℕ} {d d' : PageDir} {ph ph1 : Phys}
      (hu : k.table.findUnused = some p) (hpi : p ≠ i) (hl : k.phys.freelist = f::fs)
      (hd : k.pgdir i = some d)
      (hc : copy { k.phys with freelist := fs } d (k.table.slot i).sz = .ok (ph, d', none))
      (hf : kfree ph f = .ok ph1) : Forks copy k i (unforked k p i f ph1 d') (-1)
  | child {p : Fin NPROC} {f : ℕ} {fs : List ℕ} {d d' c : PageDir} {ph : Phys} {t : Ftable}
      {o : Ofile} (hu : k.table.findUnused = some p) (hpi : p ≠ i)
      (hl : k.phys.freelist = f::fs) (hd : k.pgdir i = some d)
      (hc : copy { k.phys with freelist := fs } d (k.table.slot i).sz = .ok (ph, d', some c))
      (ho : dupAll (k.ofile i) (List.finRange NOFILE) k.files (k.ofile p) = .ok (t, o)) :
      Forks copy k i (forked k p i f fs ph d' c t o) k.table.nextpid

theorem forkWith_forks
    {copy : Phys → PageDir → ℕ → Except Halt (Phys × PageDir × Option PageDir)}
    {k k' : Kernel} {i : Fin NPROC} {r : ℤ} (hi : (k.table.slot i).state.hasSpace = true)
    (he : forkWith copy k i = .ok (k', r)) : Forks copy k i k' r := by
  rw [forkWith] at he
  cases hu : k.table.findUnused with
  | none =>
    rw [Kernel.allocproc, hu] at he
    cases he
    exact .full hu
  | some p =>
    have hpi : p ≠ i := by
      rintro rfl
      rw [Ptable.findUnused_state hu] at hi
      cases hi
    rcases kalloc_cases k.phys with ⟨hl,hka⟩ | ⟨f,fs,hl,-⟩
    · rw [Kernel.allocproc, hu] at he
      dsimp only at he
      rw [hka] at he
      cases he
      exact .noStack hu hl
    · have hslot : ((claimed k p f fs).table.slot i).sz = (k.table.slot i).sz := by
        simp [claimed, Ptable.claim, Ptable.set, Function.update_of_ne (Ne.symm hpi)]
      rw [allocproc_some hu hl] at he
      dsimp only at he
      rw [bind_ok] at he
      obtain ⟨d,hd,he⟩ := he
      rw [hslot, bind_ok] at he
      obtain ⟨⟨ph,d',c⟩,hc,he⟩ := he
      dsimp only at he
      cases c with
      | none =>
        rw [bind_ok] at he
        obtain ⟨k1,h1,h2⟩ := he
        cases h2
        obtain ⟨ph1,hf,rfl⟩ := freeStack_eq (f := f) (by simp [Kernel.setDir, claimed]) h1
        exact .noCopy hu hpi hl (dir_eq hd) hc hf
      | some c =>
        have hpid : ((claimed k p f fs).table.slot p).pid = k.table.nextpid := by
          simp [claimed, Ptable.claim, Ptable.set]
        rw [bind_ok] at he
        obtain ⟨⟨t,o⟩,ho,h2⟩ := he
        cases h2
        rw [show ((claimed k p f fs).setDir i ph d').table = (claimed k p f fs).table from rfl,
          hpid]
        exact .child hu hpi hl (dir_eq hd) hc ho

theorem unclaim_spaces {t : Ptable} {p : Fin NPROC} (hp : (t.slot p).state = .unused) :
    ((t.claim p).setState p .unused).spaces = t.spaces := by
  rw [Ptable.setState_spaces, claim_spaces hp]
  simp [Ptable.claim, Ptable.set, ProcState.hasSpace]

theorem KInv.child {g g' : Ghost} {k : Kernel} (h : KInv g k) {p i : Fin NPROC} {f : ℕ}
    {fs : List ℕ} {ph : Phys} {d' c : PageDir} {t : Ftable} {o : Ofile}
    (hi : (k.table.slot i).state.hasSpace = true) (hpi : p ≠ i)
    (hp : (k.table.slot p).state = .unused)
    (hs : Stock g' ph (c::d'::others k i) (f::(kstacks k++fixed k)) t) :
    KInv g' (forked k p i f fs ph d' c t o) := by
  have hn := spaces_slot hi
  have hpn := spaces_unused hp
  have hsp : ∀ j, (forked k p i f fs ph d' c t o).table.spaces j =
      if j = p then some (k.table.slot i).sz else k.table.spaces j := forked_spaces hpi
  have hdir : ∀ j, (forked k p i f fs ph d' c t o).pgdir j =
      if j = p then some c else if j = i then some d' else k.pgdir j := by
    intro j
    simp only [forked, Kernel.setDir, claimed, Function.update_apply]
  have hstk : (forked k p i f fs ph d' c t o).kstack = Function.update k.kstack p (some f) := rfl
  have hperm : (dirs (forked k p i f fs ph d' c t o)).Perm (c::d'::others k i) := by
    have h1 : (dirs (forked k p i f fs ph d' c t o)).Perm
        (c::gather (Function.update (Kern.space k) i (some d'))) := by
      apply gather_fill (i := p)
      · rw [Function.update_of_ne hpi, Kern.space, hpn]
        rfl
      · rw [Kern.space, hsp, hdir, if_pos rfl, if_pos rfl]
        rfl
      · intro j hj
        rw [Kern.space, hsp, hdir, if_neg hj, if_neg hj]
        by_cases hji : j = i
        · subst hji
          rw [Function.update_self, if_pos rfl, hn]
          rfl
        · rw [Function.update_of_ne hji, if_neg hji]
          rfl
    refine h1.trans (List.Perm.cons c ?_)
    exact gather_swap (Function.update_self ..) (fun j hj => Function.update_of_ne hj ..)
  have hkst : (kstacks (forked k p i f fs ph d' c t o)).Perm (f::kstacks k) := by
    apply gather_fill (i := p) (h.idle p hpn)
    · rw [hstk, Function.update_self]
    · intro j hj
      rw [hstk, Function.update_of_ne hj]
  refine ⟨Stock.perm hs hperm.symm (hkst.symm.append_right (fixed k)),?_,?_⟩
  · intro j m hj
    rw [hsp] at hj
    rw [hdir, hstk]
    by_cases hjp : j = p
    · rw [if_pos hjp] at hj
      cases hj
      subst hjp
      exact ⟨by simp,by simp,(h.space i _ hn).2.2⟩
    · rw [if_neg hjp] at hj
      have := h.space j m hj
      rw [if_neg hjp, Function.update_of_ne hjp]
      refine ⟨?_,this.2⟩
      split
      · rfl
      · exact this.1
  · intro j hj
    rw [hsp] at hj
    by_cases hjp : j = p
    · rw [if_pos hjp] at hj
      cases hj
    · rw [if_neg hjp] at hj
      rw [hstk, Function.update_of_ne hjp]
      exact h.idle j hj

/-- What a copying function does to the ledger: the child joins it, and the
ghosts become some `g'` in `Q`. -/
def Copies (g : Ghost) (Q : Ghost → Prop)
    (copy : Phys → PageDir → ℕ → Except Halt (Phys × PageDir × Option PageDir))
    (k : Kernel) (i : Fin NPROC) : Prop :=
  ∀ d, k.pgdir i = some d → ∀ own ph ph' d' r, Books g ph (d::others k i) own →
    (∀ x, ph.pgRefcount x = k.phys.pgRefcount x) →
    copy ph d (k.table.slot i).sz = .ok (ph', d', r) →
    ∃ g', Q g' ∧ Books g' ph' (r.toList++d'::others k i) own

theorem forkWith_inv {g : Ghost} {Q : Ghost → Prop}
    {copy : Phys → PageDir → ℕ → Except Halt (Phys × PageDir × Option PageDir)}
    {k k' : Kernel} {i : Fin NPROC} {r : ℤ} (h : KInv g k) (hg : Q g)
    (hi : (k.table.slot i).state.hasSpace = true) (hcopy : Copies g Q copy k i)
    (he : forkWith copy k i = .ok (k', r)) : ∃ g', Q g' ∧ KInv g' k' := by
  have hn := spaces_slot hi
  obtain ⟨P,hb,hpp⟩ := h.stock
  -- the ledger before the copy, with the child's stack among the kernel's frames
  have hcopied : ∀ {f : ℕ} {fs : List ℕ} {d d' : PageDir} {ph : Phys} {c : Option PageDir},
      k.phys.freelist = f::fs → k.pgdir i = some d →
      copy { k.phys with freelist := fs } d (k.table.slot i).sz = .ok (ph, d', c) →
      ∃ g', Q g' ∧ Books g' ph (c.toList++d'::others k i) (P++(f::(kstacks k++fixed k))) := by
    intro f fs d d' ph c hl hd hc
    obtain ⟨d0,hd0,-,hperm⟩ := h.split hn
    rw [hd] at hd0
    cases hd0
    exact hcopy d hd _ _ _ _ _ ((hb.kalloc hl).perm hperm List.perm_middle.symm)
      (fun _ => rfl) hc
  cases forkWith_forks hi he with
  | full => exact ⟨g,hg,h⟩
  | @noStack p hu hl =>
    have hp := Ptable.findUnused_state hu
    have hs : KInv g { k with kstack := Function.update k.kstack p none } := by
      refine h.restack (fun j => ?_)
      by_cases hj : j = p
      · subst hj
        exact Or.inr ⟨Function.update_self ..,spaces_unused hp⟩
      · exact Or.inl (Function.update_of_ne hj _ _)
    exact ⟨g,hg,hs.retable (unclaim_spaces hp)⟩
  | @noCopy p f fs d d' ph ph1 hu hpi hl hd hc hf =>
    have hp := Ptable.findUnused_state hu
    have hpn := spaces_unused hp
    obtain ⟨g',hg',hb2⟩ := hcopied hl hd hc
    have hb3 : Books g' ph (d'::others k i) (f::(P++(kstacks k++fixed k))) :=
      hb2.perm (List.Perm.refl _) List.perm_middle
    obtain ⟨hk2,hb4⟩ := hb3.kfree
    rw [hk2] at hf
    cases hf
    have hk : Function.update (Function.update k.kstack p (some f)) p none = k.kstack := by
      rw [Function.update_idem, ← h.idle p hpn, Function.update_eq_self]
    refine ⟨g',hg',KInv.refork h hn (unclaim_spaces hp) hk (fun j hj => ?_) ?_ ⟨P,hb4,hpp⟩⟩
    · by_cases hjp : j = p
      · subst hjp
        exact Or.inr hpn
      · left
        simp [unforked, Function.update_of_ne hjp, Function.update_of_ne hj]
    · simp [unforked, Function.update_of_ne (Ne.symm hpi)]
  | @child p f fs d d' c ph t o hu hpi hl hd hc ho =>
    obtain ⟨g',hg',hb2⟩ := hcopied hl hd hc
    exact ⟨g',hg',KInv.child h hi hpi (Ptable.findUnused_state hu)
      ⟨P,hb2.perm (List.Perm.refl _) (List.Perm.refl _),dupAll_pipes hpp ho⟩⟩

theorem exec_inv {g : Ghost} {k k' : Kernel} {i : Fin NPROC} {file : Option (List UInt8)}
    {argv : List (List UInt8)} {r : ℤ} (h : KInv g k) (hw : g.watch false → g.watch true)
    (hi : (k.table.slot i).state.hasSpace = true) (he : k.exec i file argv = .ok (k', r)) :
    KInv g k' := by
  have hn := spaces_slot hi
  have hlen := dirs_length k
  rcases exec_cases he with ⟨rfl,-⟩ | ⟨bytes,ph,q,-,h1,hend⟩
  · exact h
  obtain ⟨P,hb,hp⟩ := h.stock
  have hb1 := Exec.image_books (by omega) hw hb h1
  rcases hend with ⟨rfl,rfl,-⟩ | ⟨d,sz,old,ph1,rfl,ho,h2,rfl,-⟩
  · exact ⟨⟨P,hb1,hp⟩,h.space,h.idle⟩
  · obtain ⟨e,hd,-,hperm⟩ := h.split hn
    rw [hd] at ho
    cases ho
    have hb2 : Books g ph (old::d::others k i) (P++(kstacks k++fixed k)) :=
      hb1.perm ((hperm.cons d).trans (List.Perm.swap _ _ _)) (List.Perm.refl _)
    have hlo := others_length k i
    obtain ⟨ph2,hf,hb3,-⟩ := freevm_books (by rw [List.length_cons]; omega) hb2
    rw [h2] at hf
    cases hf
    exact (h.setDir hn ⟨P,hb3,hp⟩).setSz (Exec.image_size h1) hi

theorem reap_spaces (t : Ptable) (p j : Fin NPROC) :
    (t.reap p).spaces j = if j = p then none else t.spaces j := by
  rw [Ptable.spaces, Ptable.reap, Ptable.set_slot]
  by_cases hj : j = p
  · simp [hj, ProcState.hasSpace]
  · simp [hj, Ptable.spaces]

theorem KInv.reap {g : Ghost} {k : Kernel} (h : KInv g k) {p : Fin NPROC} {f : ℕ} {ph : Phys}
    (hf : k.kstack p = some f)
    (hs : Stock g ph (others k p) (gather (Function.update k.kstack p none)++fixed k) k.files) :
    KInv g { k with phys := ph, kstack := Function.update k.kstack p none,
                    table := k.table.reap p } := by
  have hsp : Kern.space { k with phys := ph, kstack := Function.update k.kstack p none,
                                 table := k.table.reap p } =
      Function.update (Kern.space k) p none := by
    funext j
    simp only [Kern.space, reap_spaces]
    by_cases hj : j = p
    · subst hj
      rw [if_pos rfl, Function.update_self]
      rfl
    · rw [if_neg hj, Function.update_of_ne hj]
      rfl
  refine ⟨?_,?_,?_⟩
  · rw [dirs, hsp]
    exact hs
  · intro j m hj
    dsimp only at hj ⊢
    rw [reap_spaces] at hj
    split at hj
    · cases hj
    · next hjp =>
      rw [Function.update_of_ne hjp]
      exact h.space j m hj
  · intro j hj
    dsimp only at hj ⊢
    rw [reap_spaces] at hj
    by_cases hjp : j = p
    · rw [hjp, Function.update_self]
    · rw [if_neg hjp] at hj
      rw [Function.update_of_ne hjp]
      exact h.idle j hj

/-- A `wait` that finds a zombie reaps it: its stack and its address space go
back to the allocator. -/
theorem wait_reaps {g : Ghost} {k : Kernel} {i p : Fin NPROC} (h : KInv g k)
    (hz : (k.table.wake i).findZombie i = some p) :
    ∃ k', k.wait i = .ok (k', .val ((k.table.wake i).slot p).pid) ∧ KInv g k' ∧
      k'.table = (k.table.wake i).reap p ∧ k'.pgdir = k.pgdir ∧
      ∀ x, 0 < maps (others k p) x → k'.phys.mem x = k.phys.mem x := by
  have hsp : (k.table.wake i).spaces = k.table.spaces := Ptable.set_spaces rfl rfl
  have hk : KInv g { k with table := k.table.wake i } := h.retable hsp
  have hoth : others { k with table := k.table.wake i } p = others k p := by
    rw [others, space_retable hsp, others]
  have hzs : ((k.table.wake i).slot p).state.hasSpace = true := by
    rw [(Ptable.findZombie_state hz).2]
    rfl
  have hn := spaces_slot hzs
  obtain ⟨d,hd,-,hperm⟩ := hk.split hn
  obtain ⟨f,hf⟩ := Option.isSome_iff_exists.mp (hk.space p _ hn).2.1
  obtain ⟨P,hb,hp⟩ := hk.stock
  have hst : (kstacks { k with table := k.table.wake i }).Perm
      (f::gather (Function.update k.kstack p none)) := gather_swap hf (fun _ _ => rfl)
  have hb1 : Books g k.phys (d::others { k with table := k.table.wake i } p)
      (f::(P++(gather (Function.update k.kstack p none)++fixed k))) :=
    hb.perm hperm ((hst.append_right (fixed k)).append_left P |>.trans List.perm_middle)
  obtain ⟨hk2,hb2⟩ := hb1.kfree
  have hlo := others_length { k with table := k.table.wake i } p
  obtain ⟨ph2,hf2,hb3,hmem⟩ := freevm_books (by omega) hb2
  refine ⟨_,?_,hk.reap hf ⟨P,hb3,hp⟩,rfl,rfl,fun x hx => ?_⟩
  swap
  · rw [← hoth] at hx
    exact (hmem x hx).trans (hb1.kfree_mem (by rw [maps_cons]; omega))
  rw [Kernel.wait, hz]
  dsimp only
  rw [bind_ok]
  dsimp only at hf hd
  refine ⟨_,by rw [Kernel.freeStack, hf]; dsimp only; rw [hk2]; rfl,?_⟩
  dsimp only
  rw [hd]
  dsimp only
  rw [hf2]
  rfl

theorem sleep_spaces {t : Ptable} {i : Fin NPROC} (hi : (t.slot i).state.hasSpace = true) :
    ((t.wake i).sleep i).spaces = (t.wake i).spaces := by
  refine Ptable.set_spaces ?_ rfl
  rw [Ptable.wake, Ptable.set_slot, if_pos rfl, hi]
  rfl

theorem wait_inv {g : Ghost} {k k' : Kernel} {i : Fin NPROC} {r : Ret} (h : KInv g k)
    (hi : (k.table.slot i).state.hasSpace = true) (he : k.wait i = .ok (k', r)) : KInv g k' := by
  have hk : KInv g { k with table := k.table.wake i } := h.retable (Ptable.set_spaces rfl rfl)
  rcases wait_cases he with ⟨p,f,d,ph,ph1,hz,-⟩ | ⟨-,⟨-,rfl,-⟩ | ⟨-,rfl,-⟩⟩
  · obtain ⟨k1,h1,hk1,-⟩ := wait_reaps h hz
    rw [he] at h1
    cases h1
    exact hk1
  · exact hk
  · exact hk.retable (sleep_spaces hi)

theorem pagefault_inv {g : Ghost} {k : Kernel} {i : Fin NPROC} {va : ℕ} {d d' : PageDir}
    {ph : Phys} {killed : Bool} (h : KInv g k) (hi : (k.table.slot i).state.hasSpace = true)
    (hd : k.dir i = .ok d) (hf : pagefault k.phys d va = .ok (ph, d', killed)) :
    KInv g (k.setDir i ph d') := by
  have hn := spaces_slot hi
  obtain ⟨d0,-,hd0,hperm⟩ := h.split hn
  have hlen := others_length k i
  rw [hd] at hd0
  cases hd0
  exact h.setDir hn (Stock.map (Stock.perm h.stock hperm (List.Perm.refl _))
    (fun P hb => pagefault_books (by omega) hb hf))

/-- A property of the kernel that the parts of a memory access of `i` keep. -/
structure Keeps (P : Kernel → Prop) (i : Fin NPROC) : Prop where
  fault : ∀ {k : Kernel} {va : ℕ} {d d' : PageDir} {ph : Phys} {killed : Bool}, P k →
    (k.table.slot i).state.hasSpace = true → k.dir i = .ok d →
    pagefault k.phys d va = .ok (ph, d', killed) → P (k.setDir i ph d')
  kill : ∀ {k : Kernel}, P k → P { k with table := k.table.kill i }
  exit : ∀ {k k' : Kernel}, P k → (k.table.slot i).state.hasSpace = true → k.exit i = .ok k' →
    P k'
  poke : ∀ {k : Kernel} {va : ℕ} {b : UInt8}, P k → P (k.poke i va b)

section
variable {P : Kernel → Prop} {k k' : Kernel} {i : Fin NPROC} {va : ℕ} {r : Ret}

theorem Keeps.kfault (hP : Keeps P i) (h : P k) (hi : (k.table.slot i).state.hasSpace = true)
    (he : k.kfault i va = .ok (k', r)) : P k' := by
  rcases kfault_cases he with rfl | ⟨d,ph,d',killed,hd,h1,rfl⟩
  · exact h
  · have hk1 := hP.fault h hi hd h1
    split
    · exact hP.kill hk1
    · exact hk1

theorem Keeps.trap {again : Bool} (hP : Keeps P i) (h : P k)
    (hi : (k.table.slot i).state.hasSpace = true) (he : k.fault i va = .ok (k', again)) :
    P k' := by
  obtain ⟨d,ph,d',killed,hd,h1,⟨-,-,h2⟩ | ⟨-,-,rfl⟩⟩ := fault_cases he
  · refine hP.exit (hP.kill (hP.fault h hi hd h1)) ?_ h2
    change ((k.table.kill i).slot i).state.hasSpace = true
    rw [Ptable.kill, Ptable.set_slot, if_pos rfl]
    exact hi
  · exact hP.fault h hi hd h1

theorem Keeps.load (hP : Keeps P i) (h : P k) (hi : (k.table.slot i).state.hasSpace = true)
    (he : k.load i va = .ok (k', r)) : P k' := by
  rcases load_cases he with ⟨b,-,rfl,-⟩ | ⟨-,-,again,h1⟩
  · exact h
  · exact hP.trap h hi h1

theorem Keeps.store {b : UInt8} (hP : Keeps P i) (h : P k)
    (hi : (k.table.slot i).state.hasSpace = true) (he : k.store i va b = .ok (k', r)) :
    P k' := by
  rcases store_cases he with ⟨-,rfl,-⟩ | ⟨-,k1,again,h1,⟨-,rfl,-⟩ | ⟨-,rfl,-⟩⟩
  · exact hP.poke h
  · exact hP.poke (hP.trap h hi h1)
  · exact hP.trap h hi h1

end

theorem keeps_inv (g : Ghost) (i : Fin NPROC) : Keeps (KInv g) i where
  fault h hi hd hf := pagefault_inv h hi hd hf
  kill h := h.retable (Ptable.set_spaces rfl rfl)
  exit h hi he := exit_inv h hi he
  poke h := ⟨Stock.map h.stock (fun _ hb => hb.fill _),h.space,h.idle⟩

end Xv6.Kern
