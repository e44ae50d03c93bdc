import Xv6.Mem.View
import Xv6.Proc.Isolation

/-!
# A reference machine that copies eagerly

The reference machine has the kernel's process table and gives every process
pages of its own: `forkcow` copies the parent's pages at once and a store to a
user page is never trapped. `Sim` relates a kernel to the reference machine
through the views of its processes. One lemma per operation shows that a kernel
step that finds the memory it asks for is matched, result and all.
-/

set_option autoImplicit false

namespace Xv6.Kern
open Xv6.Mmu Xv6.Kalloc Xv6.Paging Xv6.Uvm Xv6.Table Xv6.Ledger Xv6.Tally Xv6.Halting
open Xv6.FreeSpec Xv6.GrowSpec Xv6.View Kernel

structure Ref where
  table : Ptable
  pages : Fin NPROC → ℕ → Option Page

namespace Ref

def setPages (s : Ref) (cur : Fin NPROC) (p : ℕ → Option Page) : Ref :=
  { s with pages := Function.update s.pages cur p }

theorem setPages_self (s : Ref) (cur : Fin NPROC) (p : ℕ → Option Page) :
    (s.setPages cur p).pages cur = p := Function.update_self ..

theorem setPages_other (s : Ref) {cur j : Fin NPROC} (h : j ≠ cur) (p : ℕ → Option Page) :
    (s.setPages cur p).pages j = s.pages j := Function.update_of_ne h ..

def exit (s : Ref) (cur : Fin NPROC) : Option (Ref × Ret) :=
  if cur = s.table.initproc then none else some ({ s with table := s.table.exit cur }, .gone)

/-- An access outside the user pages kills the process. -/
def illegal (s : Ref) (cur : Fin NPROC) : Option (Ref × Ret) :=
  exit { s with table := s.table.kill cur } cur

def back (cur : Fin NPROC) (x : Ref × ℤ) : Option (Ref × Ret) :=
  if (x.1.table.slot cur).killed then x.1.exit cur else some (x.1, .val x.2)

/-- The child gets its own copy of each of the parent's pages. -/
def forkcow (s : Ref) (cur : Fin NPROC) : Ref × ℤ :=
  match s.table.findUnused with
  | none => (s, -1)
  | some np =>
    ({ s with table := (s.table.claim np).launch np cur }.setPages np
      (fun v => if v*PGSIZE < (s.table.slot cur).sz then s.pages cur v else none),
      s.table.nextpid)

/-- `growproc` takes a new size of zero for a failure. -/
def sbrk (s : Ref) (cur : Fin NPROC) (n : ℤ) : Ref × ℤ :=
  let sz := (s.table.slot cur).sz
  let sz' := newSize sz n
  if n = 0 then (s, sz)
  else if 0 < n then
    if KERNBASE ≤ sz' then (s, -1)
    else
      ({ s with table := s.table.setSz cur (max sz sz') }.setPages cur (fun v =>
        if sz ≤ v*PGSIZE ∧ v*PGSIZE < sz' then some (true, fun _ => 0) else s.pages cur v), sz)
  else
    let s' := s.setPages cur (fun v =>
      if sz' ≤ v*PGSIZE ∧ v*PGSIZE < sz then none else s.pages cur v)
    if min sz sz' = 0 then (s', -1)
    else ({ s' with table := s.table.setSz cur (min sz sz') }, sz)

def wait (s : Ref) (cur : Fin NPROC) : Ref × Ret :=
  let s := { s with table := s.table.wake cur }
  match s.table.findZombie cur with
  | some p => ({ s with table := s.table.reap p }, .val (s.table.slot p).pid)
  | none =>
    if !s.table.haveKids cur || (s.table.slot cur).killed then (s, .val (-1))
    else ({ s with table := s.table.sleep cur }, .asleep)

def load (s : Ref) (cur : Fin NPROC) (va : ℕ) : Option (Ref × Ret) :=
  match s.pages cur (va/PGSIZE) with
  | some (true, page) => some (s, .byte (page (va%PGSIZE)))
  | _ => s.illegal cur

def put (s : Ref) (cur : Fin NPROC) (va : ℕ) (page : ℕ → UInt8) (b : UInt8) : Ref :=
  s.setPages cur (Function.update (s.pages cur) (va/PGSIZE)
    (some (true, writeBytes page (va%PGSIZE) [b])))

def store (s : Ref) (cur : Fin NPROC) (va : ℕ) (b : UInt8) : Option (Ref × Ret) :=
  match s.pages cur (va/PGSIZE) with
  | some (true, page) => some (s.put cur va page b, .stored)
  | _ => s.illegal cur

def syscall (s : Ref) (cur : Fin NPROC) : Op → Option (Ref × Ret)
  | .forkcow => back cur (s.forkcow cur)
  | .sbrk n => back cur (s.sbrk cur n.toInt)
  | .exit => s.exit cur
  | .wait =>
    match s.wait cur with
    | (s, .val z) => back cur (s, z)
    | (s, r) => some (s, r)
  | _ => none

def step (s : Ref) (cur : Fin NPROC) (op : Op) : Option (Ref × Ret) :=
  match op with
  | .load va => s.load cur va.toNat
  | .store va b => s.store cur va.toNat b
  | op =>
    if (s.table.slot cur).killed ∧ (s.table.slot cur).chan = none then s.exit cur
    else s.syscall cur op

def run (s : Ref) : List (Fin NPROC × Op) → Option (List Ret)
  | [] => some []
  | (i, op)::es => do
    let (s, r) ← s.step i op
    let rs ← s.run es
    some (r::rs)

theorem run_cons {s : Ref} {i : Fin NPROC} {op : Op} {es : List (Fin NPROC × Op)} {r : Ret}
    {rs : List Ret} (h : s.run ((i, op)::es) = some (r::rs)) :
    ∃ s', s.step i op = some (s', r) ∧ s'.run es = some rs := by
  rw [run] at h
  cases hs : s.step i op with
  | none =>
    rw [hs] at h
    cases h
  | some x =>
    obtain ⟨s',r'⟩ := x
    rw [hs] at h
    dsimp only [bind, Option.bind] at h
    cases hr : s'.run es with
    | none =>
      rw [hr] at h
      cases h
    | some rs' =>
      rw [hr] at h
      cases h
      exact ⟨s',rfl,hr⟩

theorem exit_gone {s s' : Ref} {i : Fin NPROC} {r : Ret} (h : s.exit i = some (s', r)) :
    r = .gone := by
  rw [exit] at h
  split at h
  · cases h
  · cases h
    rfl

theorem back_eq {s s' : Ref} {i : Fin NPROC} {z y : ℤ} (h : back i (s, y) = some (s', .val z)) :
    s' = s ∧ z = y := by
  rw [back] at h
  split at h
  · cases exit_gone h
  · cases h
    exact ⟨rfl,rfl⟩

theorem forkcow_val {s s' : Ref} {i : Fin NPROC} {z : ℤ}
    (h : s.step i .forkcow = some (s', .val z)) (hz : z ≠ -1) : ∃ p,
      s.table.findUnused = some p ∧ s'.table = (s.table.claim p).launch p i ∧
      (∀ j, j ≠ p → s'.pages j = s.pages j) ∧
      s'.pages p = fun v => if v*PGSIZE < (s.table.slot i).sz then s.pages i v else none := by
  change (if (s.table.slot i).killed ∧ (s.table.slot i).chan = none then s.exit i
    else back i (s.forkcow i)) = _ at h
  split at h
  · cases exit_gone h
  · cases hu : s.table.findUnused with
    | none =>
      rw [forkcow, hu] at h
      exact absurd (back_eq h).2 hz
    | some p =>
      rw [forkcow, hu] at h
      obtain ⟨rfl,-⟩ := back_eq h
      exact ⟨p,rfl,rfl,fun j hj => setPages_other _ hj _,setPages_self _ _ _⟩

theorem sbrk_first {s s' : Ref} {i : Fin NPROC} {n : BitVec 32} {z : ℤ}
    (h : s.step i (.sbrk n) = some (s', .val z)) (hn : n.toInt < 0)
    (hsz : 0 < newSize (s.table.slot i).sz n.toInt) : s'.pages i 0 = s.pages i 0 := by
  change (if (s.table.slot i).killed ∧ (s.table.slot i).chan = none then s.exit i
    else back i (s.sbrk i n.toInt)) = _ at h
  split at h
  · cases exit_gone h
  · rw [sbrk] at h
    dsimp only at h
    rw [if_neg (by omega), if_neg (by omega)] at h
    have hpage : ∀ {t : Ptable}, ({ s.setPages i (fun v =>
        if newSize (s.table.slot i).sz n.toInt ≤ v*PGSIZE ∧ v*PGSIZE < (s.table.slot i).sz then none
        else s.pages i v) with table := t } : Ref).pages i 0 = s.pages i 0 := by
      intro t
      change (s.setPages i _).pages i 0 = _
      rw [setPages_self, if_neg (by omega)]
    split at h
    · obtain ⟨rfl,-⟩ := back_eq h
      exact hpage (t := s.table)
    · obtain ⟨rfl,-⟩ := back_eq h
      exact hpage

theorem store_other {s s' : Ref} {i j : Fin NPROC} {va : BitVec 32} {b : UInt8}
    (h : s.step i (.store va b) = some (s', .stored)) (hj : j ≠ i) : s'.pages j = s.pages j := by
  change s.store i va.toNat b = _ at h
  rw [store] at h
  split at h
  · cases h
    exact setPages_other _ hj _
  · cases exit_gone h

end Ref

def view (ph : Phys) (d : PageDir) (v : ℕ) : Option Page :=
  if v < UPAGES then look ph d v else none

structure Sim (k : Kernel) (s : Ref) : Prop where
  table : s.table = k.table
  pages : ∀ i d n, k.table.spaces i = some n → k.pgdir i = some d → s.pages i = view k.phys d

def Ref.of (k : Kernel) : Ref :=
  ⟨k.table, fun i => match k.pgdir i with | none => fun _ => none | some d => view k.phys d⟩

theorem sim_of (k : Kernel) : Sim k (Ref.of k) := by
  refine ⟨rfl,fun i d n _ hd => ?_⟩
  rw [Ref.of]
  dsimp only
  rw [hd]

theorem view_congr {ph ph' : Phys} {d d' : PageDir}
    (h : ∀ v < UPAGES, look ph' d' v = look ph d v) : view ph' d' = view ph d := by
  funext v
  rw [view, view]
  split
  · next hv => rw [h v hv]
  · rfl

theorem view_mem {ph ph' : Phys} {d : PageDir} (h : ∀ x, 0 < mapCnt d x → ph'.mem x = ph.mem x) :
    view ph' d = view ph d :=
  view_congr (fun _ hv => look_mem hv h)

section
variable {g : Ghost} {k k' : Kernel} {s : Ref} {i : Fin NPROC}

theorem mem_others {j : Fin NPROC} {d : PageDir} {n : ℕ} (hj : j ≠ i)
    (hn : k.table.spaces j = some n) (hd : k.pgdir j = some d) : d ∈ others k i := by
  rw [others, mem_gather]
  exact ⟨j,by rw [Function.update_of_ne hj, space, hn, hd]; rfl⟩

theorem Sim.quiet {s' : Ref} (hs : Sim k s) (hq : Quiet k k' i) (ht : s'.table = k'.table)
    (hsp : ∀ j n, j ≠ i → k'.table.spaces j = some n → ∃ m, k.table.spaces j = some m)
    (hp : ∀ j, j ≠ i → s'.pages j = s.pages j)
    (hi : ∀ d n, k'.table.spaces i = some n → k'.pgdir i = some d →
      s'.pages i = view k'.phys d) : Sim k' s' := by
  refine ⟨ht,fun j d n hn hd => ?_⟩
  by_cases hj : j = i
  · subst hj
    exact hi d n hn hd
  · obtain ⟨m,hm⟩ := hsp j n hj hn
    rw [hq.1 j hj] at hd
    rw [hp j hj, hs.pages j d m hm hd]
    refine (view_mem (fun x hx => hq.2 x ?_)).symm
    exact lt_of_lt_of_le hx (mapCnt_le_maps (mem_others hj hm hd) x)

theorem Sim.still {s' : Ref} (h : KInv g k) (hs : Sim k s) (hd : k'.pgdir = k.pgdir)
    (hm : ∀ x, 0 < maps (dirs k) x → k'.phys.mem x = k.phys.mem x) (ht : s'.table = k'.table)
    (hsp : k'.table.spaces = k.table.spaces) (hp : s'.pages = s.pages) : Sim k' s' := by
  refine ⟨ht,fun j d n hn hdj => ?_⟩
  rw [hsp] at hn
  rw [hd] at hdj
  obtain ⟨d',hd',-,hperm⟩ := h.split hn
  rw [hdj] at hd'
  cases hd'
  rw [hp, hs.pages j d n hn hdj]
  refine (view_mem (fun x hx => hm x ?_)).symm
  exact lt_of_lt_of_le hx (mapCnt_le_maps (hperm.mem_iff.mpr List.mem_cons_self) x)

theorem exit_sim (h : KInv g k) (hs : Sim k s) (hi : (k.table.slot i).state.hasSpace = true)
    (he : k.exit i = .ok k') : ∃ s', s.exit i = some (s', .gone) ∧ Sim k' s' := by
  obtain ⟨hd,hm⟩ := exit_mem h he
  obtain ⟨hinit,ph,t,o,-,rfl⟩ := exit_cases he
  refine ⟨{ s with table := s.table.exit i },?_,?_⟩
  · rw [Ref.exit, hs.table, if_neg hinit]
  · exact hs.still h hd hm (by rw [hs.table]) (Ptable.exit_spaces hi) rfl

theorem back_sim {z : ℤ} {r : Ret} (h : KInv g k) (hs : Sim k s)
    (hi : (k.table.slot i).state.hasSpace = true) (he : back i (k, z) = .ok (k', r)) :
    ∃ s', Ref.back i (s, z) = some (s', r) ∧ Sim k' s' := by
  rw [back] at he
  dsimp only at he
  rw [Ref.back, hs.table]
  split at he
  · next hk =>
    rw [bind_ok] at he
    obtain ⟨k1,h1,h2⟩ := he
    cases h2
    rw [if_pos hk]
    exact exit_sim h hs hi h1
  · next hk =>
    cases he
    rw [if_neg hk]
    exact ⟨s,rfl,hs⟩

theorem peek_view {d : PageDir} {va : ℕ} (h : KInv g k)
    (hi : (k.table.slot i).state.hasSpace = true) (hd : k.pgdir i = some d) (hva : va < 2^32) :
    (readable (k.entry i va) = true ∧
      view k.phys d (va/PGSIZE) = some (true, k.phys.mem (pteFrame (k.entry i va)))) ∨
    (readable (k.entry i va) = false ∧ ∀ page, view k.phys d (va/PGSIZE) ≠ some (true, page)) := by
  obtain ⟨d',hd',-,hperm⟩ := h.split (spaces_slot hi)
  rw [hd] at hd'
  cases hd'
  obtain ⟨P,hb,-⟩ := h.stock
  rw [entry_dir hd]
  by_cases hk : va < KERNBASE
  · rw [view, if_pos (page_lt hk), look, leaf_page, seen, readable]
    cases has (d.leaf va) PTE_P <;> cases has (d.leaf va) PTE_U <;> simp
  · have hU := hb.hidden d (hperm.mem_iff.mpr List.mem_cons_self) va (by omega) hva
    right
    rw [readable, hU, Bool.and_false, view, if_neg]
    · exact ⟨rfl,fun _ h => by cases h⟩
    · rw [UPAGES_eq]
      unfold KERNBASE PGSIZE at *
      omega

theorem fault_kills {va : ℕ} {again : Bool} (hr : readable (k.entry i va) = false)
    (he : k.fault i va = .ok (k', again)) :
    again = false ∧ Kernel.exit { k with table := k.table.kill i } i = .ok k' := by
  obtain ⟨d,ph,d',killed,hd,h1,hend⟩ := fault_cases he
  have hdir := dir_eq hd
  rw [entry_dir hdir] at hr
  rcases pagefault_cases h1 with ⟨rfl,rfl,rfl⟩ | ⟨p,-,-,hw,hP,hU,-,-⟩
  · rcases hend with ⟨-,ha,h2⟩ | ⟨h0,-⟩
    · have hsame : k.setDir i k.phys d' = k := by
        rw [Kernel.setDir, ← hdir, Function.update_eq_self]
      rw [hsame] at h2
      exact ⟨ha,h2⟩
    · cases h0
  · rw [leaf_of_walk hw, readable, hP, hU] at hr
    cases hr

theorem illegal_sim (h : KInv g k) (hs : Sim k s) (hi : (k.table.slot i).state.hasSpace = true)
    (he : Kernel.exit { k with table := k.table.kill i } i = .ok k') :
    ∃ s', s.illegal i = some (s', .gone) ∧ Sim k' s' := by
  have hsp : (k.table.kill i).spaces = k.table.spaces := Ptable.set_spaces rfl rfl
  have hs1 : Sim { k with table := k.table.kill i } { s with table := s.table.kill i } :=
    hs.still h rfl (fun _ _ => rfl) (by rw [hs.table]) hsp rfl
  refine exit_sim (h.retable hsp) hs1 ?_ he
  dsimp only
  rw [Ptable.kill, Ptable.set_slot, if_pos rfl]
  exact hi

theorem load_sim {va : ℕ} {r : Ret} (h : KInv g k) (hs : Sim k s)
    (hi : (k.table.slot i).state.hasSpace = true) (hva : va < 2^32)
    (he : k.load i va = .ok (k', r)) : ∃ s', s.load i va = some (s', r) ∧ Sim k' s' := by
  have hn := spaces_slot hi
  obtain ⟨d,hd,-,-⟩ := h.split hn
  have hp := hs.pages i d _ hn hd
  rcases load_cases he with ⟨b,hb,rfl,rfl⟩ | ⟨hb,rfl,again,h1⟩ <;> rw [Kernel.peek] at hb <;>
    rcases peek_view h hi hd hva with ⟨hr,hv⟩ | ⟨hr,hv⟩ <;> rw [hr] at hb
  · cases hb
    exact ⟨s,by rw [Ref.load, hp, hv],hs⟩
  · cases hb
  · cases hb
  · obtain ⟨s',h3,h4⟩ := illegal_sim h hs hi (fault_kills hr h1).2
    refine ⟨s',?_,h4⟩
    rw [Ref.load, hp]
    split
    · next page hpg => exact absurd hpg (hv page)
    · exact h3

theorem poke_sim {va : ℕ} (b : UInt8) (h : KInv g k) (hs : Sim k s)
    (hi : (k.table.slot i).state.hasSpace = true) (hva : va < 2^32)
    (hw : writable (k.entry i va) = true) :
    Sim (k.poke i va b) (s.put i va (k.phys.mem (pteFrame (k.entry i va))) b) := by
  have hpriv := h.writable_private hi hva hw
  have hn := spaces_slot hi
  refine hs.quiet (poke_quiet hpriv) hs.table (fun j n _ hj => ⟨n,hj⟩)
    (fun j hj => Ref.setPages_other s hj _) (fun d n _ hd => ?_)
  change k.pgdir i = some d at hd
  obtain ⟨d',hd',-,hperm⟩ := h.split hn
  rw [hd] at hd'
  cases hd'
  obtain ⟨P,hb,-⟩ := h.stock
  have hmem : d ∈ dirs k := hperm.mem_iff.mpr List.mem_cons_self
  rw [entry_dir hd] at hw ⊢
  simp only [writable, readable, Bool.and_eq_true] at hw
  obtain ⟨⟨hP,hU⟩,hW⟩ := hw
  have hk : va < KERNBASE := by
    by_contra hn
    have := hb.hidden d hmem va (by omega) hva
    rw [hU] at this
    cases this
  have hv := page_lt hk
  have hbytes : (k.poke i va b).phys.mem = Function.update k.phys.mem (pteFrame (d.leaf va))
      (writeBytes (k.phys.mem (pteFrame (d.leaf va))) (va%PGSIZE) [b]) := by
    rw [Kernel.poke, entry_dir hd]
    rfl
  rw [Ref.put, Ref.setPages_self, hs.pages i d _ hn hd]
  funext v
  by_cases hvv : v = va/PGSIZE
  · subst hvv
    rw [Function.update_self, view, if_pos hv, look, leaf_page, seen, hP, hU, hbytes,
      Function.update_self]
    rfl
  · rw [Function.update_of_ne hvv, view, view]
    split
    · next hlt =>
      -- another page of the directory is in another frame
      refine (seen_congr rfl rfl (fun hP' => ?_)).symm
      rw [hbytes]
      refine Function.update_of_ne (fun hf => ?_) _ _
      have h2 := mapCnt_two hlt hv hvv (show MapsTo d v _ from ⟨hP',hf⟩)
        (show MapsTo d (va/PGSIZE) (pteFrame (d.leaf va)) by
          rw [MapsTo, leaf_page]; exact ⟨hP,rfl⟩)
      have h1 := hb.inj d hmem (pteFrame (d.leaf va))
      omega
    · rfl

theorem fault_sim {va : ℕ} (h : KInv g k) (hs : Sim k s)
    (hi : (k.table.slot i).state.hasSpace = true) (he : k.fault i va = .ok (k', true)) :
    Sim k' s ∧ k'.table = k.table := by
  obtain ⟨hq,ha⟩ := fault_quiet h hi he
  obtain ⟨-,ht,-,-⟩ := ha rfl
  have hn := spaces_slot hi
  obtain ⟨d0,hd0,hdir,hperm⟩ := h.split hn
  obtain ⟨d,ph,d',killed,hd,h1,⟨-,h0,-⟩ | ⟨-,-,rfl⟩⟩ := fault_cases he
  · cases h0
  · rw [hd] at hdir
    cases hdir
    obtain ⟨P,hb,-⟩ := h.stock
    have hlk := (pagefault_look (hb.perm hperm (List.Perm.refl _)) h1).2
    refine ⟨hs.quiet hq hs.table (fun j n _ hj => ⟨n,hj⟩) (fun _ _ => rfl) (fun e n _ he => ?_),rfl⟩
    rw [hs.pages i _ _ hn hd0]
    have : e = d' := by
      simp only [Kernel.setDir, Function.update_self, Option.some.injEq] at he
      exact he.symm
    subst this
    exact (view_congr hlk).symm

theorem store_sim {va : ℕ} {b : UInt8} {r : Ret} (h : KInv g k) (hs : Sim k s)
    (hi : (k.table.slot i).state.hasSpace = true) (hva : va < 2^32)
    (hf : readable (k.entry i va) = true → r = .stored)
    (he : k.store i va b = .ok (k', r)) : ∃ s', s.store i va b = some (s', r) ∧ Sim k' s' := by
  have hn := spaces_slot hi
  obtain ⟨d,hd,-,-⟩ := h.split hn
  have hp := hs.pages i d _ hn hd
  rcases store_cases he with ⟨hw,rfl,rfl⟩ | ⟨-,k1,again,h1,hend⟩
  · refine ⟨_,?_,poke_sim b h hs hi hva hw⟩
    rcases peek_view h hi hd hva with ⟨-,hv⟩ | ⟨hr,-⟩
    · rw [Ref.store, hp, hv]
    · rw [writable, hr] at hw
      cases hw
  · rcases peek_view h hi hd hva with ⟨hr,hv⟩ | ⟨hr,hv⟩
    · rcases hend with ⟨rfl,rfl,rfl⟩ | ⟨-,-,rfl⟩
      · obtain ⟨hs1,ht⟩ := fault_sim h hs hi h1
        obtain ⟨hw1,-⟩ := (fault_quiet h hi h1).2 rfl
        have hi1 : (k1.table.slot i).state.hasSpace = true := by rw [ht]; exact hi
        have hk1 := (keeps_inv g i).trap h hi h1
        refine ⟨_,?_,poke_sim b hk1 hs1 hi1 hva hw1⟩
        obtain ⟨d1,hd1,-,-⟩ := hk1.split (spaces_slot hi1)
        have hp1 := hs1.pages i d1 _ (spaces_slot hi1) hd1
        rcases peek_view hk1 hi1 hd1 hva with ⟨-,hv1⟩ | ⟨hr1,-⟩
        · rw [Ref.store, hp1, hv1]
        · rw [writable, hr1] at hw1
          cases hw1
      · cases hf hr
    · obtain ⟨rfl,h2⟩ := fault_kills hr h1
      rcases hend with ⟨h0,-⟩ | ⟨-,rfl,rfl⟩
      · cases h0
      obtain ⟨s',h3,h4⟩ := illegal_sim h hs hi h2
      refine ⟨s',?_,h4⟩
      rw [Ref.store, hp]
      split
      · next page hpg => exact absurd hpg (hv page)
      · exact h3

theorem forkWith_forked {c : Phys → PageDir → ℕ → Except Halt (Phys × PageDir × Option PageDir)}
    {z : ℤ} (hi : (k.table.slot i).state.hasSpace = true) (hz : z ≠ -1)
    (he : forkWith c k i = .ok (k', z)) : ∃ p f fs d ph d' e t o, k.table.findUnused = some p ∧
      k.pgdir i = some d ∧
      c { k.phys with freelist := fs } d (k.table.slot i).sz = .ok (ph, d', some e) ∧
      k' = forked k p i f fs ph d' e t o ∧ z = k.table.nextpid := by
  cases forkWith_forks hi he with
  | full => exact absurd rfl hz
  | noStack => exact absurd rfl hz
  | noCopy => exact absurd rfl hz
  | child hu _ _ hd hc _ => exact ⟨_,_,_,_,_,_,_,_,_,hu,hd,hc,rfl,rfl⟩

theorem forkcow_sim {z : ℤ} (h : KInv g k) (hs : Sim k s)
    (hi : (k.table.slot i).state.hasSpace = true)
    (hf : k.table.findUnused ≠ none → z ≠ -1) (he : k.forkcow i = .ok (k', z)) :
    ∃ s', s.forkcow i = (s', z) ∧ Sim k' s' := by
  have hn := spaces_slot hi
  cases hu : k.table.findUnused with
  | none =>
    rw [Kernel.forkcow, forkWith, Kernel.allocproc, hu] at he
    cases he
    exact ⟨s,by rw [Ref.forkcow, hs.table, hu],hs⟩
  | some p =>
    obtain ⟨q,f,fs,d,ph,d',e,t,o,hq,hd,hc,rfl,rfl⟩ := forkWith_forked hi (hf (by simp [hu])) he
    rw [hu] at hq
    cases hq
    have hpi : p ≠ i := by
      rintro rfl
      rw [Ptable.findUnused_state hu] at hi
      cases hi
    have hsz := (h.space i _ hn).2.2
    obtain ⟨hm,hlk⟩ := copyuvmcow_look (by omega) hc
    have hown := hs.pages i d _ hn hd
    refine ⟨_,by rw [Ref.forkcow, hs.table, hu],rfl,fun j x n hj hx => ?_⟩
    rw [forked_spaces hpi] at hj
    change Function.update (Function.update k.pgdir i (some d')) p (some e) j = some x at hx
    change _ = view ph x
    by_cases hjp : j = p
    · subst hjp
      rw [Function.update_self] at hx
      cases hx
      rw [Ref.setPages_self]
      funext v
      rw [hown]
      by_cases hv : v < UPAGES
      · rw [view, view, if_pos hv, if_pos hv, (hlk v hv).2]
        rfl
      · rw [view, view, if_neg hv, if_neg hv, ite_self]
    · rw [if_neg hjp] at hj
      rw [Function.update_of_ne hjp] at hx
      rw [Ref.setPages_other _ hjp]
      by_cases hji : j = i
      · subst hji
        rw [Function.update_self] at hx
        cases hx
        exact hown.trans (view_congr (fun v hv => (hlk v hv).1)).symm
      · rw [Function.update_of_ne hji] at hx
        refine (hs.pages j x n hj hx).trans (view_mem (fun y _ => ?_)).symm
        rw [hm]

theorem resize_sim {s' : Ref} {ph : Phys} {d' : PageDir} {t : Ptable} (hs : Sim k s)
    (hmem : ∀ x, 0 < maps (others k i) x → ph.mem x = k.phys.mem x) (ht : s'.table = t)
    (hsp : ∀ j n, j ≠ i → t.spaces j = some n → ∃ m, k.table.spaces j = some m)
    (hp : ∀ j, j ≠ i → s'.pages j = s.pages j) (hi : s'.pages i = view ph d') :
    Sim { k.setDir i ph d' with table := t } s' := by
  refine hs.quiet ⟨fun j hj => ?_,hmem⟩ ht hsp hp (fun d n _ hd => ?_)
  · simp [Kernel.setDir, Function.update_of_ne hj]
  · simp only [Kernel.setDir, Function.update_self, Option.some.injEq] at hd
    rw [← hd]
    exact hi

theorem setSz_others {t : Ptable} {m : ℕ} (j : Fin NPROC) (n : ℕ) (hj : j ≠ i)
    (h : (t.setSz i m).spaces j = some n) : ∃ m, t.spaces j = some m := by
  rw [Ptable.setSz_spaces, if_neg hj] at h
  exact ⟨n,h⟩

theorem sbrk_sim {n z : ℤ} (h : KInv g k) (hs : Sim k s)
    (hi : (k.table.slot i).state.hasSpace = true)
    (hf : 0 < n → newSize (k.table.slot i).sz n < KERNBASE → z ≠ -1)
    (he : k.sbrk i n = .ok (k', z)) : ∃ s', s.sbrk i n = (s', z) ∧ Sim k' s' := by
  have hn := spaces_slot hi
  have hsz := (h.space i _ hn).2.2
  obtain ⟨d,hd,hdir,hperm⟩ := h.split hn
  obtain ⟨P,hb,-⟩ := h.stock
  have hb1 := hb.perm hperm (List.Perm.refl _)
  have hlen := others_length k i
  have hown := hs.pages i d _ hn hd
  rw [Ref.sbrk, hs.table]
  dsimp only
  rcases sbrk_cases he with ⟨h0,rfl,rfl⟩ | ⟨d0,ph,d',r,h0,hd0,hr,hend⟩
  · rw [if_pos h0]
    exact ⟨s,rfl,hs⟩
  rw [hd] at hd0
  cases hd0
  rw [if_neg h0]
  rw [resize] at hr
  by_cases hpos : 0 < n
  · rw [if_pos hpos] at hr ⊢
    by_cases hbig : KERNBASE ≤ newSize (k.table.slot i).sz n
    · rw [allocuvm, if_pos hbig] at hr
      cases hr
      rcases hend with ⟨-,rfl,rfl⟩ | ⟨h1,-⟩
      swap
      · exact absurd rfl h1
      rw [if_pos hbig]
      refine ⟨s,rfl,?_⟩
      rw [Kernel.setDir, ← hd, Function.update_eq_self]
      exact hs
    · rcases hend with ⟨-,-,rfl⟩ | ⟨hr0,rfl,rfl⟩
      · exact absurd rfl (hf hpos (by omega))
      rw [if_neg hbig]
      obtain ⟨hmem,hlk⟩ := allocuvm_look hb1 hr0 hr
      rcases allocuvm_size hr with h1 | ⟨-,h1⟩
      · exact absurd h1 hr0
      refine ⟨_,rfl,resize_sim hs hmem (by rw [h1]; rfl) setSz_others
        (fun j hj => Ref.setPages_other _ hj _) ?_⟩
      rw [Ref.setPages_self]
      funext v
      rw [hown]
      by_cases hv : v < UPAGES
      · rw [view, view, if_pos hv, if_pos hv, hlk v hv]
      · rw [view, view, if_neg hv, if_neg hv, if_neg]
        rw [UPAGES_eq] at hv
        unfold KERNBASE PGSIZE at *
        omega
  · rw [if_neg hpos] at hr ⊢
    obtain ⟨-,hmem⟩ := deallocuvm_books (by omega) (by omega) hb1 hr
    have hlk := fun v (hv : v < UPAGES) => deallocuvm_look (by omega) (by omega) hb1 hr hv
    have hsize : r = min (k.table.slot i).sz (newSize (k.table.slot i).sz n) :=
      MapSpec.deallocuvm_size hr
    have hview : (fun v => if newSize (k.table.slot i).sz n ≤ v*PGSIZE ∧
        v*PGSIZE < (k.table.slot i).sz then none else s.pages i v) = view ph d' := by
      funext v
      rw [hown]
      by_cases hv : v < UPAGES
      · rw [view, view, if_pos hv, if_pos hv, hlk v hv]
      · rw [view, view, if_neg hv, if_neg hv, ite_self]
    have hrest : ∀ x, 0 < maps (others k i) x → ph.mem x = k.phys.mem x :=
      fun x hx => hmem x (by rw [maps_cons]; omega)
    rw [← hsize, hview]
    rcases hend with ⟨hr0,rfl,rfl⟩ | ⟨hr0,rfl,rfl⟩
    · rw [if_pos hr0]
      exact ⟨_,rfl,resize_sim (t := k.table) hs hrest hs.table (fun j n _ hj => ⟨n,hj⟩)
        (fun j hj => Ref.setPages_other _ hj _) (Ref.setPages_self _ _ _)⟩
    · rw [if_neg hr0]
      exact ⟨_,rfl,resize_sim hs hrest rfl setSz_others
        (fun j hj => Ref.setPages_other _ hj _) (Ref.setPages_self _ _ _)⟩

theorem wait_sim {r : Ret} (h : KInv g k) (hs : Sim k s)
    (hi : (k.table.slot i).state.hasSpace = true) (he : k.wait i = .ok (k', r)) :
    ∃ s', s.wait i = (s', r) ∧ Sim k' s' := by
  have hsp : (k.table.wake i).spaces = k.table.spaces := Ptable.set_spaces rfl rfl
  rw [Ref.wait, hs.table]
  dsimp only
  rcases wait_cases he with ⟨p,f,d,ph,ph1,hz,-⟩ | ⟨hz,⟨hc,rfl,rfl⟩ | ⟨hc,rfl,rfl⟩⟩ <;> rw [hz]
  · obtain ⟨k1,h1,-,ht,hd,hm⟩ := wait_reaps h hz
    rw [he] at h1
    cases h1
    have hnone : ((k.table.wake i).reap p).spaces p = none := by
      rw [reap_spaces, if_pos rfl]
    refine ⟨_,rfl,hs.quiet (i := p) ⟨fun j _ => by rw [hd],hm⟩ ht.symm (fun j n hj hn => ?_)
      (fun _ _ => rfl) (fun d n hn _ => ?_)⟩
    · rw [ht, reap_spaces, if_neg hj, hsp] at hn
      exact ⟨n,hn⟩
    · rw [ht, hnone] at hn
      cases hn
  · dsimp only
    rw [if_pos hc]
    exact ⟨_,rfl,hs.still h rfl (fun _ _ => rfl) rfl hsp rfl⟩
  · dsimp only
    rw [if_neg hc]
    exact ⟨_,rfl,hs.still h rfl (fun _ _ => rfl) rfl ((sleep_spaces hi).trans hsp) rfl⟩

end

end Xv6.Kern
