import Xv6.Proc.Runs

/-!
# Steps that succeed

Forks of a small process succeed while the free list is long, and `exit` and
`wait` always do. Each lemma names the resulting state, so that a run can be
followed step by step from boot.
-/

set_option autoImplicit false

namespace Xv6.Kern
open Xv6.Mmu Xv6.Kalloc Xv6.Paging Xv6.Uvm Xv6.Table Xv6.Files Xv6.Ledger Xv6.Halting
open Xv6.MapSpec Xv6.GrowSpec Xv6.Supply Kernel

theorem dupAll_closed {parent : Ofile} (h : ∀ fd, parent fd = none) (l : List (Fin NOFILE))
    (t : Ftable) (o : Ofile) : dupAll parent l t o = .ok (t, o) := by
  induction l with
  | nil => rfl
  | cons fd l ih =>
    rw [dupAll, h]
    exact ih

theorem forked_slot {k : Kernel} {p i : Fin NPROC} {f : ℕ} {fs : List ℕ} {ph : Phys}
    {d' c : PageDir} {t : Ftable} {o : Ofile} (hpi : p ≠ i) (j : Fin NPROC) :
    (forked k p i f fs ph d' c t o).table.slot j = if j = p then
      { k.table.slot p with state := .runnable, pid := k.table.nextpid, parent := some i,
                            sz := (k.table.slot i).sz }
      else k.table.slot j := by
  by_cases hj : j = p
  · subst hj
    simp [forked, claimed, Kernel.setDir, Ptable.launch, Ptable.claim, Ptable.set,
      Function.update_of_ne (Ne.symm hpi)]
  · simp [forked, claimed, Kernel.setDir, Ptable.launch, Ptable.claim, Ptable.set, hj]

/-- A process that is small, alive and has no open files. -/
structure Small (k : Kernel) (i : Fin NPROC) (d : PageDir) : Prop where
  state : (k.table.slot i).state = .runnable
  awake : (k.table.slot i).chan = none
  unkilled : (k.table.slot i).killed = false
  dir : k.pgdir i = some d
  sz : (k.table.slot i).sz ≤ 2^22
  present : ∀ v, v*PGSIZE < (k.table.slot i).sz → has (d.leaf (v*PGSIZE)) PTE_P = true
  closed : ∀ fd, k.ofile i fd = none

theorem Small.canStep {k : Kernel} {i : Fin NPROC} {d : PageDir} (h : Small k i d) (op : Op) :
    CanStep k i op := ⟨Or.inl h.state,Or.inl h.awake⟩

theorem forkWith_runs {c : Phys → PageDir → ℕ → Except Halt (Phys × PageDir × Option PageDir)}
    {k : Kernel} {i p : Fin NPROC} {d d' e : PageDir} {f : ℕ} {fs : List ℕ} {ph : Phys}
    (h : Small k i d) (hp : k.table.findUnused = some p) (hl : k.phys.freelist = f::fs)
    (hc : c { k.phys with freelist := fs } d (k.table.slot i).sz = .ok (ph, d', some e)) :
    forkWith c k i = .ok (forked k p i f fs ph d' e k.files (k.ofile p), k.table.nextpid) := by
  have hpu := Ptable.findUnused_state hp
  have hpi : p ≠ i := by
    rintro rfl
    rw [h.state] at hpu
    cases hpu
  have ha := allocproc_some hp hl
  have hsz : ((claimed k p f fs).table.slot i).sz = (k.table.slot i).sz := by
    simp [claimed, Ptable.claim, Ptable.set, Function.update_of_ne (Ne.symm hpi)]
  have hdir : (claimed k p f fs).dir i = .ok d := by
    rw [Kernel.dir, show (claimed k p f fs).pgdir i = some d from h.dir]
  have hpid : ((claimed k p f fs).table.slot p).pid = k.table.nextpid := by
    simp [claimed, Ptable.claim, Ptable.set]
  rw [forkWith, ha]
  dsimp only
  rw [hdir, bind_ok]
  refine ⟨d,rfl,?_⟩
  rw [hsz, bind_ok]
  refine ⟨_,hc,?_⟩
  dsimp only
  rw [bind_ok]
  refine ⟨(k.files, k.ofile p),dupAll_closed h.closed _ _ _,?_⟩
  rw [← hpid]
  rfl

theorem forked_back {k : Kernel} {i p : Fin NPROC} {d d' e : PageDir} {f : ℕ} {fs : List ℕ}
    {ph : Phys} {z : ℤ} (h : Small k i d) (hp : k.table.findUnused = some p) :
    back i (forked k p i f fs ph d' e k.files (k.ofile p), z) =
      .ok (forked k p i f fs ph d' e k.files (k.ofile p), .val z) := by
  have hpu := Ptable.findUnused_state hp
  have hpi : p ≠ i := by
    rintro rfl
    rw [h.state] at hpu
    cases hpu
  rw [back]
  dsimp only
  rw [forked_slot hpi, if_neg (Ne.symm hpi), h.unkilled]
  rfl

theorem Small.entering {k : Kernel} {i : Fin NPROC} {d : PageDir} (h : Small k i d) :
    ¬ ((k.table.slot i).killed ∧ (k.table.slot i).chan = none) := by
  rw [h.unkilled]
  simp

theorem step_syscall {k : Kernel} {i : Fin NPROC} {op : Op}
    (h : ¬ ((k.table.slot i).killed ∧ (k.table.slot i).chan = none)) :
    step k i op = syscall k i op := by
  cases op <;> first | rfl | exact if_neg h

/-- What a copy of a small address space needs and gives. -/
structure Copied (ph : Phys) (sz : ℕ) (ph' : Phys) (e : PageDir) : Prop where
  free : ph.freelist.length ≤ ph'.freelist.length+131+pageCount sz
  above : ∀ v < UPAGES, sz ≤ v*PGSIZE → e.leaf (v*PGSIZE) = 0#32

theorem ready_fresh {ph ph' : Phys} {d e : PageDir} {sz : ℕ} (hf : Fresh ph ph' e)
    (hsz : sz ≤ 2^22) (hp : ∀ v, v*PGSIZE < sz → has (d.leaf (v*PGSIZE)) PTE_P = true) :
    Ready d e 0 (pageCount sz) := by
  refine ⟨rfl,?_,?_,?_⟩
  · unfold pageCount PGSIZE at *
    omega
  · intro v _ h
    apply hp
    unfold pageCount PGSIZE at *
    omega
  · intro v _ h
    rw [hf.leaf _ (by unfold pageCount PGSIZE KERNBASE at *; omega)]
    rfl

theorem fresh_above {ph ph' : Phys} {e : PageDir} {v : ℕ} (hf : Fresh ph ph' e) (hv : v < UPAGES) :
    e.leaf (v*PGSIZE) = 0#32 :=
  hf.leaf _ (by rw [UPAGES_eq] at hv; unfold KERNBASE PGSIZE; omega)

theorem copyuvmcow_runs (ph : Phys) {d : PageDir} {sz : ℕ} (hsz : sz ≤ 2^22)
    (hp : ∀ v, v*PGSIZE < sz → has (d.leaf (v*PGSIZE)) PTE_P = true)
    (hc : ∀ f, toChar (ph.pgRefcount f) = ph.pgRefcount f) (hf : 131 ≤ ph.freelist.length) :
    ∃ ph' d' e, copyuvmcow ph d sz = .ok (ph', d', some e) ∧ Copied ph sz ph' e ∧
      ph'.mem = ph.mem ∧
      (∀ f, ph'.pgRefcount f = toChar (ph.pgRefcount f+hits d (pageCount sz) 0 f)) ∧
      (∀ v, v*PGSIZE < sz → e.leaf (v*PGSIZE) = protect (d.leaf (v*PGSIZE)) ∧
        d'.leaf (v*PGSIZE) = markCow (protect (d.leaf (v*PGSIZE)))) ∧
      ∀ v < UPAGES, sz ≤ v*PGSIZE → d'.leaf (v*PGSIZE) = d.leaf (v*PGSIZE) := by
  obtain ⟨ph1,e1,h1,hl1,hs1⟩ := setupkvm_fed ph (by omega)
  have hfr := setupkvm_some h1
  have hlack := lack_le e1
  obtain ⟨ph2,d2,e2,h2,hfed,hm2,hr2,hin,hout⟩ := cowLoop_runs ph1 d e1
    (ready_fresh hfr hsz hp) (by omega) (fun f => by rw [hfr.ref]; exact hc f)
  have hlack2 := lack_le e2
  have hlen := hfed.len
  refine ⟨ph2,d2,e2,?_,⟨by omega,fun v hv hle => ?_⟩,hm2.trans hfr.mem,fun f => ?_,
    fun v hv => hin v (Nat.zero_le _) (by unfold pageCount PGSIZE at *; omega),fun v hv hle => ?_⟩
  · rw [copyuvmcow, h1]
    exact h2
  · rw [(hout v hv (Or.inr (by unfold pageCount PGSIZE at *; omega))).1, fresh_above hfr hv]
  · rw [hr2, hfr.ref]
  · exact (hout v hv (Or.inr (by unfold pageCount PGSIZE at *; omega))).2

theorem forkcow_step {k : Kernel} {i p : Fin NPROC} {d : PageDir} (h : Small k i d)
    (hp : k.table.findUnused = some p)
    (hc : ∀ f, toChar (k.phys.pgRefcount f) = k.phys.pgRefcount f)
    (hf : 132 ≤ k.phys.freelist.length) :
    ∃ f fs ph d' e, k.phys.freelist = f::fs ∧
      step k i .forkcow =
        .ok (forked k p i f fs ph d' e k.files (k.ofile p), .val k.table.nextpid) ∧
      Copied { k.phys with freelist := fs } (k.table.slot i).sz ph e ∧ ph.mem = k.phys.mem ∧
      (∀ x, ph.pgRefcount x =
        toChar (k.phys.pgRefcount x+hits d (pageCount (k.table.slot i).sz) 0 x)) ∧
      (∀ v, v*PGSIZE < (k.table.slot i).sz → e.leaf (v*PGSIZE) = protect (d.leaf (v*PGSIZE)) ∧
        d'.leaf (v*PGSIZE) = markCow (protect (d.leaf (v*PGSIZE)))) ∧
      ∀ v < UPAGES, (k.table.slot i).sz ≤ v*PGSIZE →
        d'.leaf (v*PGSIZE) = d.leaf (v*PGSIZE) := by
  rcases kalloc_cases k.phys with ⟨h0,-⟩ | ⟨f,fs,hl,-⟩
  · rw [h0] at hf
    simp at hf
  · rw [hl, List.length_cons] at hf
    obtain ⟨ph,d',e,hcow,hcp,hmem,href,hin,hout⟩ := copyuvmcow_runs
      { k.phys with freelist := fs } h.sz h.present hc (by dsimp only; omega)
    refine ⟨f,fs,ph,d',e,hl,?_,hcp,hmem,href,hin,hout⟩
    rw [step_syscall h.entering, syscall, bind_ok]
    exact ⟨_,forkWith_runs (c := copyuvmcow) h hp hl hcow,forked_back h hp⟩

structure Virgin (k : Kernel) (p : Fin NPROC) : Prop where
  state : (k.table.slot p).state = .unused
  awake : (k.table.slot p).chan = none
  unkilled : (k.table.slot p).killed = false
  closed : ∀ fd, k.ofile p fd = none

theorem Virgin.ne {k : Kernel} {p j : Fin NPROC} (hp : Virgin k p)
    (h : (k.table.slot j).state = .runnable) : p ≠ j := by
  rintro rfl
  rw [hp.state] at h
  cases h

/-- A step by which the small process `i` forks and `p` is its small child. -/
structure Family (op : Op) (k k' : Kernel) (i p : Fin NPROC) (d' e : PageDir) : Prop where
  step : step k i op = .ok (k', .val k.table.nextpid)
  parent : (∀ v, v*PGSIZE < (k.table.slot i).sz → has (d'.leaf (v*PGSIZE)) PTE_P = true) →
    Small k' i d'
  child : (∀ v, v*PGSIZE < (k.table.slot i).sz → has (e.leaf (v*PGSIZE)) PTE_P = true) →
    Small k' p e
  slot : ∀ j, k'.table.slot j = if j = p then
    { k.table.slot p with state := .runnable, pid := k.table.nextpid, parent := some i,
                          sz := (k.table.slot i).sz }
    else k.table.slot j
  initproc : k'.table.initproc = k.table.initproc
  nextpid : k'.table.nextpid = k.table.nextpid+1
  pgdir : ∀ j, k'.pgdir j = if j = p then some e else if j = i then some d' else k.pgdir j
  ofile : k'.ofile = k.ofile
  free : k.phys.freelist.length ≤ k'.phys.freelist.length+132+pageCount (k.table.slot i).sz

section
variable {op : Op} {k k' : Kernel} {i p : Fin NPROC} {d d' e : PageDir}

theorem Family.virgin (h : Family op k k' i p d' e) {q : Fin NPROC} (hq : Virgin k q)
    (hqp : q ≠ p) : Virgin k' q := by
  have hs : k'.table.slot q = k.table.slot q := by rw [h.slot, if_neg hqp]
  exact ⟨by rw [hs]; exact hq.state,by rw [hs]; exact hq.awake,by rw [hs]; exact hq.unkilled,
    by rw [h.ofile]; exact hq.closed⟩

theorem Family.runnable (h : Family op k k' i p d' e) {j : Fin NPROC}
    (hj : j = p ∨ (k.table.slot j).state = .runnable) : (k'.table.slot j).state = .runnable := by
  rw [h.slot]
  split
  · rfl
  · next hne => exact hj.resolve_left hne

theorem forked_family {f : ℕ} {fs : List ℕ} {ph : Phys} (h : Small k i d) (hp : Virgin k p)
    (hl : k.phys.freelist = f::fs)
    (hs : Kern.step k i op =
      .ok (forked k p i f fs ph d' e k.files (k.ofile p), .val k.table.nextpid))
    (hc : Copied { k.phys with freelist := fs } (k.table.slot i).sz ph e) :
    Family op k (forked k p i f fs ph d' e k.files (k.ofile p)) i p d' e := by
  have hpi := hp.ne h.state
  have hslot : ∀ j, (forked k p i f fs ph d' e k.files (k.ofile p)).table.slot j = if j = p then
      { k.table.slot p with state := .runnable, pid := k.table.nextpid, parent := some i,
                            sz := (k.table.slot i).sz }
      else k.table.slot j := forked_slot hpi
  have hofile : (forked k p i f fs ph d' e k.files (k.ofile p)).ofile = k.ofile :=
    Function.update_eq_self ..
  have hdir : ∀ j, (forked k p i f fs ph d' e k.files (k.ofile p)).pgdir j =
      if j = p then some e else if j = i then some d' else k.pgdir j := by
    intro j
    simp only [forked, Kernel.setDir, claimed, Function.update_apply]
  refine ⟨hs,fun hd => ?_,fun he => ?_,hslot,rfl,rfl,hdir,hofile,?_⟩
  · have hsi : (forked k p i f fs ph d' e k.files (k.ofile p)).table.slot i = k.table.slot i := by
      rw [hslot, if_neg (Ne.symm hpi)]
    refine ⟨by rw [hsi]; exact h.state,by rw [hsi]; exact h.awake,by rw [hsi]; exact h.unkilled,?_,
      by rw [hsi]; exact h.sz,by rw [hsi]; exact hd,by rw [hofile]; exact h.closed⟩
    rw [hdir, if_neg (Ne.symm hpi), if_pos rfl]
  · have hsp := hslot p
    rw [if_pos rfl] at hsp
    refine ⟨by rw [hsp],by rw [hsp]; exact hp.awake,by rw [hsp]; exact hp.unkilled,?_,
      by rw [hsp]; exact h.sz,by rw [hsp]; exact he,by rw [hofile]; exact hp.closed⟩
    rw [hdir, if_pos rfl]
  · have := hc.free
    dsimp only at this
    change k.phys.freelist.length ≤ ph.freelist.length+132+_
    rw [hl, List.length_cons]
    omega

/-- A successful `forkcow`: both directories map the parent's pages without
`PTE_W` and every mapping is counted. -/
theorem forkcow_family (h : Small k i d) (hp : Virgin k p) (hu : k.table.findUnused = some p)
    (hc : ∀ f, toChar (k.phys.pgRefcount f) = k.phys.pgRefcount f)
    (hf : 132 ≤ k.phys.freelist.length) :
    ∃ k' d' e, Family .forkcow k k' i p d' e ∧ k'.phys.mem = k.phys.mem ∧
      (∀ x, k'.phys.pgRefcount x =
        toChar (k.phys.pgRefcount x+hits d (pageCount (k.table.slot i).sz) 0 x)) ∧
      (∀ v, v*PGSIZE < (k.table.slot i).sz → e.leaf (v*PGSIZE) = protect (d.leaf (v*PGSIZE)) ∧
        d'.leaf (v*PGSIZE) = markCow (protect (d.leaf (v*PGSIZE)))) ∧
      ∀ v < UPAGES, (k.table.slot i).sz ≤ v*PGSIZE →
        d'.leaf (v*PGSIZE) = d.leaf (v*PGSIZE) := by
  obtain ⟨f,fs,ph,d',e,hl,hs,hcp,hmem,href,hin,hout⟩ := forkcow_step h hu hc hf
  exact ⟨_,d',e,forked_family h hp hl hs hcp,hmem,href,hin,hout⟩

end

theorem KInv.chars {g : Ghost} {k : Kernel} (h : KInv g k) (f : ℕ) :
    toChar (k.phys.pgRefcount f) = k.phys.pgRefcount f := by
  obtain ⟨P,hb,-⟩ := h.stock
  have h1 := hb.counted f
  have h2 := maps_le_length f (fun e he => hb.inj e he f)
  have h3 := dirs_length k
  have h4 : g.u f ≤ 1 := by rcases hb.single f with h | h <;> omega
  exact toChar_of_small _ (by omega) (by omega)

theorem Booted.small {k : Kernel} (h : Booted k) : ∃ d f, Small k slot0 d ∧ InRange f ∧
    d.leaf 0 = physAddr f ||| (PTE_W ||| PTE_U) ||| PTE_P ∧
    ∀ v < UPAGES, v ≠ 0 → d.leaf (v*PGSIZE) = 0#32 := by
  obtain ⟨d,f,hd,hf,hl,hbl⟩ := h.code
  have hs : k.table.slot slot0 = ⟨.runnable, 1, none, false, none, PGSIZE⟩ := by
    rw [h.table]
    rfl
  refine ⟨d,f,⟨by rw [hs],by rw [hs],by rw [hs],hd,by rw [hs]; decide,?_,h.closed slot0⟩,hf,hl,hbl⟩
  intro v hv
  rw [hs] at hv
  have : v = 0 := by
    dsimp only at hv
    unfold PGSIZE at hv
    omega
  rw [this, Nat.zero_mul, hl, entry_P]

theorem Booted.virgin {k : Kernel} (h : Booted k) {p : Fin NPROC} (hp : p ≠ slot0) :
    Virgin k p := by
  have hs : k.table.slot p = ⟨.unused, 0, none, false, none, 0⟩ := by
    rw [h.table]
    exact if_neg hp
  exact ⟨by rw [hs],by rw [hs],by rw [hs],h.closed p⟩

theorem findUnused_next {k : Kernel} {p : Fin NPROC} (hp : Virgin k p)
    (hlt : ∀ j < p, (k.table.slot j).state = .runnable) : k.table.findUnused = some p :=
  Ptable.findUnused_eq hp.state (fun j hj => by rw [hlt j hj]; decide)

theorem below_slot1 {j : Fin NPROC} (h : j < slot1) : j = slot0 := by
  apply Fin.ext
  have : j.val < 1 := h
  change j.val = 0
  omega

theorem below_slot2 {j : Fin NPROC} (h : j < slot2) : j = slot0 ∨ j = slot1 := by
  have h2 : j.val < 2 := h
  by_cases h0 : j.val = 0
  · exact Or.inl (Fin.ext h0)
  · right
    apply Fin.ext
    change j.val = 1
    omega

theorem store_reclaims {k : Kernel} {i : Fin NPROC} {d : PageDir} {p : Pte} (va : ℕ)
    (b : UInt8) (hd : k.pgdir i = some d) (hva : va < KERNBASE) (hw : d.walk va = some p)
    (hP : has p PTE_P = true) (hU : has p PTE_U = true) (hW : has p PTE_W = false)
    (hr : k.phys.pgRefcount (pteFrame p) = 1) :
    k.store i va b = .ok ((k.setDir i k.phys (d.setPte va (reclaim p))).poke i va b, .stored) := by
  have he : k.entry i va = p := (entry_dir hd va).trans (leaf_of_walk hw)
  have hf : pagefault k.phys d va = .ok (k.phys, d.setPte va (reclaim p), false) := by
    rw [pagefault, if_neg (by omega), hw]
    dsimp only
    rw [if_neg (by simp [hP, hU]), if_neg (by simp [hW]), if_pos hr]
  have hk : k.fault i va = .ok (k.setDir i k.phys (d.setPte va (reclaim p)), true) := by
    rw [Kernel.fault, Kernel.dir, hd, bind_ok]
    refine ⟨d,rfl,?_⟩
    rw [hf]
    rfl
  rw [Kernel.store, he, if_neg (by simp [writable, hW]), hk]
  rfl

theorem Small.sbrk_drops {k : Kernel} {i : Fin NPROC} {d : PageDir} {m : ℕ} {p : Pte} (h : Small k i d)
    (hsz : (k.table.slot i).sz = (m+1)*PGSIZE) (hm : 0 < m) (hlt : m < 1024)
    (hw : d.walk (m*PGSIZE) = some p) (hP : has p PTE_P = true) (ha : pteAddr p ≠ 0#32)
    (hr : toChar (k.phys.pgRefcount (pteFrame p)-1) ≠ 0) :
    step k i (.sbrk (BitVec.ofInt 32 (-4096))) =
      .ok ({ k.setDir i (k.phys.decRef (pteFrame p)) (d.setPte (m*PGSIZE) 0#32) with
        table := k.table.setSz i (m*PGSIZE) }, .val ((m+1)*PGSIZE : ℕ)) := by
  have hn : (BitVec.ofInt 32 (-4096)).toInt = -4096 := by decide
  have hnew : newSize (k.table.slot i).sz (-4096) = m*PGSIZE := by
    rw [hsz, newSize]
    unfold PGSIZE
    omega
  have hround : PGROUNDUP (m*PGSIZE) = m*PGSIZE := by
    unfold PGROUNDUP PGSIZE
    omega
  have hloop : deallocLoop ((m+1)*PGSIZE) ((m+1)*PGSIZE/PGSIZE+1) (m*PGSIZE) k.phys d =
      .ok (k.phys.decRef (pteFrame p), d.setPte (m*PGSIZE) 0#32) := by
    rw [Nat.mul_div_cancel _ (by decide), deallocLoop, if_pos (by unfold PGSIZE; omega), hw]
    dsimp only
    rw [if_pos hP, if_neg ha, dropRef, decRef_self, if_neg hr]
    dsimp only [bind, Except.bind]
    rw [deallocLoop, if_neg (by unfold PGSIZE; omega)]
  have hcall : k.sbrk i (-4096) = .ok ({ k.setDir i (k.phys.decRef (pteFrame p))
      (d.setPte (m*PGSIZE) 0#32) with table := k.table.setSz i (m*PGSIZE) },
      ((m+1)*PGSIZE : ℕ)) := by
    have hres : resize k.phys d (k.table.slot i).sz (-4096) =
        .ok (k.phys.decRef (pteFrame p), d.setPte (m*PGSIZE) 0#32, m*PGSIZE) := by
      rw [resize, if_neg (by decide), hnew, deallocuvm, hsz, if_neg (by unfold PGSIZE; omega),
        hround, hloop]
      rfl
    rw [Kernel.sbrk, Kernel.dir, h.dir]
    dsimp only [bind, Except.bind]
    rw [if_neg (by decide), hres]
    dsimp only
    rw [if_neg (by unfold PGSIZE; omega), hsz]
    rfl
  rw [step_syscall h.entering, syscall, hn, hcall]
  dsimp only [bind, Except.bind]
  rw [back, (setSz_state _ _ _ _).2, h.unkilled]
  rfl

/-- A machine with one processor whose first program loops. -/
def oneCpu : Machine := ⟨0, [0xEB, 0xFE], fun _ _ => 0, by decide⟩

theorem one_page {v : ℕ} (h : v*PGSIZE < PGSIZE) : v = 0 := by
  unfold PGSIZE at h
  omega

theorem KInv.free_unmapped {g : Ghost} {k : Kernel} {f : ℕ} (h : KInv g k)
    (hf : f ∈ k.phys.freelist) : InRange f ∧ maps (dirs k) f = 0 ∧ k.phys.pgRefcount f = 0 := by
  obtain ⟨P,hb,-⟩ := h.stock
  have hc := List.count_pos_iff.mpr hf
  obtain ⟨h1,-,h2,-,h3⟩ := hb.idle (f := f) (by rw [kept]; omega)
  exact ⟨h1,h2,h3⟩

/-- The first process of a booted machine and its one page. -/
structure First (k : Kernel) (d : PageDir) (f : ℕ) : Prop where
  booted : Booted k
  small : Small k slot0 d
  leaf : d.leaf 0 = physAddr f ||| (PTE_W ||| PTE_U) ||| PTE_P
  blank : ∀ v < UPAGES, v ≠ 0 → d.leaf (v*PGSIZE) = 0#32
  frame : InRange f
  sz : (k.table.slot slot0).sz = PGSIZE
  next : k.table.findUnused = some slot1

theorem first_boot : ∃ k d f, boot oneCpu = .ok k ∧ First k d f := by
  obtain ⟨k,hboot,hb⟩ := boot_runs oneCpu (by decide)
  obtain ⟨d,f,hs,hf,hl,hbl⟩ := hb.small
  refine ⟨k,d,f,hboot,hb,hs,hl,hbl,hf,by rw [hb.table]; rfl,?_⟩
  exact findUnused_next (hb.virgin (by decide))
    (fun j hj => by rw [below_slot1 hj]; exact hs.state)

theorem First.counted {k : Kernel} {d : PageDir} {f : ℕ} (h : First k d f) (p : Pte)
    (hp : Visits k slot0 p) : k.phys.pgRefcount (pteFrame p) ≠ 0 := by
  have hk := h.booted.inv (fun _ => True)
  have hpos := hk.visited (canStep_space (h.small.canStep .exit)) hp
  obtain ⟨P,hb,-⟩ := hk.stock
  have hc := hb.counted (pteFrame p)
  change _+((0 : ℕ) : ℤ) = _ at hc
  omega

/-- The first process after a plain `fork`: the child's page `x` is a copy that
the counter does not know. -/
structure FirstFork (k k' : Kernel) (d e : PageDir) (x : ℕ) : Prop where
  family : Family .fork k k' slot0 slot1 d e
  ref : k'.phys.pgRefcount = k.phys.pgRefcount
  fresh : x ∈ k.phys.freelist
  parent : Small k' slot0 d
  child : Small k' slot1 e
  sz : (k'.table.slot slot1).sz = PGSIZE
  present : has (e.leaf 0) PTE_P = true
  user : has (e.leaf 0) PTE_U = true
  frame : pteFrame (e.leaf 0) = x

/-- The first process after `forkcow`: its page is shared and write protected. -/
structure FirstCow (k k' : Kernel) (d e : PageDir) : Prop where
  family : Family .forkcow k k' slot0 slot1 d e
  parent : Small k' slot0 d
  child : Small k' slot1 e
  sz : (k'.table.slot slot0).sz = PGSIZE
  next : k'.table.findUnused = some slot2
  present : has (d.leaf 0) PTE_P = true
  user : has (d.leaf 0) PTE_U = true
  readonly : has (d.leaf 0) PTE_W = false
  childPresent : has (e.leaf 0) PTE_P = true
  childUser : has (e.leaf 0) PTE_U = true

theorem first_cow {k : Kernel} {d : PageDir} {f : ℕ} (h : First k d f) :
    ∃ k' d' e, FirstCow k k' d' e := by
  have hfree := h.booted.free
  have hv : Virgin k slot1 := h.booted.virgin (by decide)
  obtain ⟨k',d',e,hf,-,-,hleaf,-⟩ := forkcow_family h.small hv h.next
    (h.booted.inv (fun _ => True)).chars (by omega)
  obtain ⟨he,hd⟩ := hleaf 0 (by rw [h.sz]; decide)
  rw [Nat.zero_mul, h.leaf] at he hd
  have hP : has (d'.leaf 0) PTE_P = true := by rw [hd, markCow_P, protect_P, entry_P]
  have hE : has (e.leaf 0) PTE_P = true := by rw [he, protect_P, entry_P]
  have hs0 : k'.table.slot slot0 = k.table.slot slot0 := by rw [hf.slot, if_neg (by decide)]
  have hv2 : Virgin k' slot2 := hf.virgin (h.booted.virgin (by decide)) (by decide)
  refine ⟨k',d',e,hf,hf.parent (fun v hv => ?_),hf.child (fun v hv => ?_),by rw [hs0, h.sz],
    findUnused_next hv2 (fun j hj => hf.runnable ?_),hP,?_,?_,hE,?_⟩
  · rw [h.sz] at hv
    rw [one_page hv, Nat.zero_mul]
    exact hP
  · rw [h.sz] at hv
    rw [one_page hv, Nat.zero_mul]
    exact hE
  · rcases below_slot2 hj with rfl | rfl
    · exact Or.inr h.small.state
    · exact Or.inl rfl
  · rw [hd, markCow_U, protect_U, entry_U]
    rfl
  · rw [hd, markCow_W, protect_W]
  · rw [he, protect_U, entry_U]
    rfl

end Xv6.Kern
