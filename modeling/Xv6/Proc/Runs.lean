import Xv6.Proc.Boot

/-!
# Whole runs

One theorem takes the kernel invariant through any step, given what the copying
function of a fork does to the ledger, and from it every run whose steps meet a
condition keeps the invariant. The two copying functions are then placed: plain
`fork` needs its parent's pages writable where the ledger watches, `forkcow`
needs them counted.
-/

set_option autoImplicit false

namespace Xv6.Kern
open Xv6.Mmu Xv6.Kalloc Xv6.Paging Xv6.Uvm Xv6.Table Xv6.Files Xv6.Ledger Xv6.Halting
open Xv6.CopySpec Kernel

theorem forkWith_self {c : Phys → PageDir → ℕ → Except Halt (Phys × PageDir × Option PageDir)}
    {k k' : Kernel} {i : Fin NPROC} {r : ℤ} (hi : (k.table.slot i).state.hasSpace = true)
    (he : forkWith c k i = .ok (k', r)) : k'.table.slot i = k.table.slot i := by
  have hne : ∀ {p : Fin NPROC}, k.table.findUnused = some p → i ≠ p := by
    rintro p hu rfl
    rw [Ptable.findUnused_state hu] at hi
    cases hi
  cases forkWith_forks hi he with
  | full => rfl
  | noStack hu =>
    simp [Ptable.setState, Ptable.claim, Ptable.set, Function.update_of_ne (hne hu)]
  | noCopy hu =>
    simp [unforked, Ptable.setState, Ptable.claim, Ptable.set, Function.update_of_ne (hne hu)]
  | child hu =>
    simp [forked, Kernel.setDir, claimed, Ptable.launch, Ptable.claim, Ptable.set,
      Function.update_of_ne (hne hu)]

theorem setSz_state (t : Ptable) (i j : Fin NPROC) (n : ℕ) :
    ((t.setSz i n).slot j).state = (t.slot j).state ∧
      ((t.setSz i n).slot j).killed = (t.slot j).killed := by
  rw [Ptable.setSz, Ptable.set_slot]
  split
  · next h => rw [h]; exact ⟨rfl,rfl⟩
  · exact ⟨rfl,rfl⟩

theorem exec_self {k k' : Kernel} {i j : Fin NPROC} {file : Option (List UInt8)}
    {argv : List (List UInt8)} {r : ℤ} (he : k.exec i file argv = .ok (k', r)) :
    (k'.table.slot j).state = (k.table.slot j).state := by
  rcases exec_cases he with ⟨rfl,-⟩ | ⟨bytes,ph,q,-,-,⟨-,rfl,-⟩ | ⟨d,sz,old,ph1,-,-,-,rfl,-⟩⟩
  · rfl
  · rfl
  · exact (setSz_state _ _ _ _).1

theorem sbrk_self {k k' : Kernel} {i j : Fin NPROC} {n r : ℤ} (he : k.sbrk i n = .ok (k', r)) :
    (k'.table.slot j).state = (k.table.slot j).state ∧
      (k'.table.slot j).killed = (k.table.slot j).killed := by
  rcases sbrk_cases he with ⟨-,rfl,-⟩ | ⟨d,ph,d',s,-,-,-,⟨-,rfl,-⟩ | ⟨-,rfl,-⟩⟩
  · exact ⟨rfl,rfl⟩
  · exact ⟨rfl,rfl⟩
  · exact setSz_state _ _ _ _

/-- A `wait` that returns leaves the caller alive; the reaped slot is another
one, since it is a zombie. -/
theorem wait_self {k k' : Kernel} {i : Fin NPROC} {z : ℤ}
    (hi : (k.table.slot i).state.live = true) (he : k.wait i = .ok (k', .val z)) :
    (k'.table.slot i).state.hasSpace = true := by
  have hsp : (k.table.slot i).state.hasSpace = true := by
    rw [ProcState.live, Bool.and_eq_true] at hi
    exact hi.1
  have hwake : ((k.table.wake i).slot i).state = (k.table.slot i).state := by
    rw [Ptable.wake, Ptable.set_slot, if_pos rfl]
  rcases wait_cases he with ⟨p,f,d,ph,ph1,hz,-,-,-,-,rfl,-⟩ | ⟨-,⟨-,rfl,-⟩ | ⟨-,-,h0⟩⟩
  · have hne : i ≠ p := by
      rintro rfl
      have := (Ptable.findZombie_state hz).2
      rw [hwake] at this
      rw [this] at hi
      cases hi
    dsimp only
    rw [Ptable.reap, Ptable.set_slot, if_neg hne, hwake]
    exact hsp
  · rw [hwake]
    exact hsp
  · cases h0

theorem canStep_live {k : Kernel} {i : Fin NPROC} {op : Op} (h : CanStep k i op) :
    (k.table.slot i).state.live = true := by
  rcases h.1 with h | h <;> rw [h] <;> rfl

/-- What a call does to the kernel before the return to user mode: nothing when
the process was killed before the call, or `kill` finds no slot. -/
inductive Effect (k : Kernel) (i : Fin NPROC) : Op → Kernel → Prop where
  | idle (op : Op) : Effect k i op k
  | fork {k1 : Kernel} {z : ℤ} (h : k.fork i = .ok (k1, z)) : Effect k i .fork k1
  | forkcow {k1 : Kernel} {z : ℤ} (h : k.forkcow i = .ok (k1, z)) : Effect k i .forkcow k1
  | exec {file : Option (List UInt8)} {argv : List (List UInt8)} {k1 : Kernel} {z : ℤ}
      (h : k.exec i file argv = .ok (k1, z)) : Effect k i (.exec file argv) k1
  | sbrk {n : BitVec 32} {k1 : Kernel} {z : ℤ} (h : k.sbrk i n.toInt = .ok (k1, z)) :
      Effect k i (.sbrk n) k1
  | wait {k1 : Kernel} {r : Ret} (h : k.wait i = .ok (k1, r)) : Effect k i .wait k1
  | kill {pid : ℤ} {t : Ptable} (h : k.table.killPid pid = some t) :
      Effect k i (.kill pid) { k with table := t }
  | pipe {k1 : Kernel} {z : ℤ} (h : k.syspipe i = .ok (k1, z)) : Effect k i .pipe k1
  | close {fd : Fin NOFILE} {k1 : Kernel} {z : ℤ} (h : k.sysclose i fd = .ok (k1, z)) :
      Effect k i (.close fd) k1
  | dup {fd : Fin NOFILE} {k1 : Kernel} {z : ℤ} (h : k.sysdup i fd = .ok (k1, z)) :
      Effect k i (.dup fd) k1
  | load {va : BitVec 32} {k1 : Kernel} {r : Ret} (h : k.load i va.toNat = .ok (k1, r)) :
      Effect k i (.load va) k1
  | store {va : BitVec 32} {b : UInt8} {k1 : Kernel} {r : Ret}
      (h : k.store i va.toNat b = .ok (k1, r)) : Effect k i (.store va b) k1
  | kfault {va : BitVec 32} {k1 : Kernel} {r : Ret} (h : k.kfault i va.toNat = .ok (k1, r)) :
      Effect k i (.kfault va) k1

/-- The state `k1` of an effect is the one after the step, or the process exits
from it. -/
def Ends (k1 k' : Kernel) (i : Fin NPROC) : Prop :=
  k' = k1 ∨ (k1.table.slot i).state.hasSpace = true ∧ k1.exit i = .ok k'

theorem back_ends {i : Fin NPROC} {x : Kernel × ℤ} {k' : Kernel} {r : Ret}
    (hi : (x.1.table.slot i).state.hasSpace = true) (he : back i x = .ok (k', r)) :
    Ends x.1 k' i := by
  rw [back] at he
  split at he
  · rw [bind_ok] at he
    obtain ⟨k1,h1,h2⟩ := he
    cases h2
    exact Or.inr ⟨hi,h1⟩
  · cases he
    exact Or.inl rfl

theorem syscall_effect {k k' : Kernel} {i : Fin NPROC} {op : Op} {r : Ret} (hc : CanStep k i op)
    (he : syscall k i op = .ok (k', r)) : ∃ k1, Effect k i op k1 ∧ Ends k1 k' i := by
  have hi := canStep_space hc
  cases op with
  | fork =>
    rw [syscall, bind_ok] at he
    obtain ⟨⟨k1,z⟩,h1,he⟩ := he
    exact ⟨k1,.fork h1,back_ends (by rw [forkWith_self (c := eagerCopy) hi h1]; exact hi) he⟩
  | forkcow =>
    rw [syscall, bind_ok] at he
    obtain ⟨⟨k1,z⟩,h1,he⟩ := he
    exact ⟨k1,.forkcow h1,back_ends (by rw [forkWith_self (c := copyuvmcow) hi h1]; exact hi) he⟩
  | exec file argv =>
    rw [syscall, bind_ok] at he
    obtain ⟨⟨k1,z⟩,h1,he⟩ := he
    exact ⟨k1,.exec h1,back_ends (by rw [exec_self h1]; exact hi) he⟩
  | sbrk n =>
    rw [syscall, bind_ok] at he
    obtain ⟨⟨k1,z⟩,h1,he⟩ := he
    exact ⟨k1,.sbrk h1,back_ends (by rw [(sbrk_self h1).1]; exact hi) he⟩
  | exit =>
    rw [syscall, bind_ok] at he
    obtain ⟨k1,h1,h2⟩ := he
    cases h2
    exact ⟨k,.idle _,Or.inr ⟨hi,h1⟩⟩
  | wait =>
    rw [syscall, bind_ok] at he
    obtain ⟨⟨k1,q⟩,h1,he⟩ := he
    dsimp only at he
    split at he
    · exact ⟨k1,.wait h1,back_ends (wait_self (canStep_live hc) h1) he⟩
    · cases he
      exact ⟨_,.wait h1,Or.inl rfl⟩
  | kill pid =>
    rw [syscall, Kernel.kill] at he
    cases ht : k.table.killPid pid with
    | none =>
      rw [ht] at he
      exact ⟨k,.idle _,back_ends hi he⟩
    | some t =>
      rw [ht] at he
      refine ⟨_,.kill ht,back_ends (x := ({ k with table := t }, 0)) ?_ he⟩
      exact spaces_has (by rw [Ptable.killPid_spaces ht, spaces_slot hi])
  | pipe =>
    rw [syscall, bind_ok] at he
    obtain ⟨⟨k1,z⟩,h1,he⟩ := he
    refine ⟨k1,.pipe h1,back_ends ?_ he⟩
    obtain ⟨ph,t,o,q,-,rfl⟩ := syspipe_cases h1
    exact hi
  | close fd =>
    rw [syscall, bind_ok] at he
    obtain ⟨⟨k1,z⟩,h1,he⟩ := he
    refine ⟨k1,.close h1,back_ends ?_ he⟩
    obtain ⟨ph,t,o,q,-,rfl⟩ := sysclose_cases h1
    exact hi
  | dup fd =>
    rw [syscall, bind_ok] at he
    obtain ⟨⟨k1,z⟩,h1,he⟩ := he
    refine ⟨k1,.dup h1,back_ends ?_ he⟩
    obtain ⟨t,o,q,-,rfl⟩ := sysdup_cases h1
    exact hi
  | load va => exact ⟨k',.load he,Or.inl rfl⟩
  | store va b => exact ⟨k',.store he,Or.inl rfl⟩
  | kfault va => exact ⟨k',.kfault he,Or.inl rfl⟩

theorem step_effect {k k' : Kernel} {i : Fin NPROC} {op : Op} {r : Ret} (hc : CanStep k i op)
    (hs : step k i op = .ok (k', r)) : ∃ k1, Effect k i op k1 ∧ Ends k1 k' i := by
  unfold step at hs
  split at hs
  · exact syscall_effect hc hs
  · exact syscall_effect hc hs
  · exact syscall_effect hc hs
  · split at hs
    · rw [bind_ok] at hs
      obtain ⟨k1,h1,h2⟩ := hs
      cases h2
      exact ⟨k,.idle _,Or.inr ⟨canStep_space hc,h1⟩⟩
    · exact syscall_effect hc hs

/-- Any effect keeps the invariant, with ghosts in `Q`, when the copying functions
of the two forks do. -/
theorem effect_inv {g : Ghost} {Q : Ghost → Prop} {k k' : Kernel} {i : Fin NPROC} {op : Op}
    (h : KInv g k) (hg : Q g) (hw : g.watch false → g.watch true)
    (hi : (k.table.slot i).state.hasSpace = true)
    (hfork : op = .fork → Copies g Q eagerCopy k i)
    (hcow : op = .forkcow → Copies g Q copyuvmcow k i)
    (he : Effect k i op k') : ∃ g', Q g' ∧ KInv g' k' := by
  cases he with
  | idle => exact ⟨g,hg,h⟩
  | fork h1 => exact forkWith_inv h hg hi (hfork rfl) h1
  | forkcow h1 => exact forkWith_inv h hg hi (hcow rfl) h1
  | exec h1 => exact ⟨g,hg,exec_inv h hw hi h1⟩
  | sbrk h1 => exact ⟨g,hg,sbrk_inv h hi h1⟩
  | wait h1 => exact ⟨g,hg,wait_inv h hi h1⟩
  | kill h1 => exact ⟨g,hg,h.retable (Ptable.killPid_spaces h1)⟩
  | pipe h1 =>
    obtain ⟨ph,t,o,q,h2,rfl⟩ := syspipe_cases h1
    exact ⟨g,hg,h.setFiles (syspipe_stock h.stock h2)⟩
  | close h1 =>
    obtain ⟨ph,t,o,q,h2,rfl⟩ := sysclose_cases h1
    exact ⟨g,hg,h.setFiles (sysclose_stock h.stock h2).1⟩
  | dup h1 =>
    obtain ⟨t,o,q,h2,rfl⟩ := sysdup_cases h1
    obtain ⟨P,hb,hp⟩ := h.stock
    exact ⟨g,hg,h.setFiles ⟨P,hb,sysdup_pipes hp h2⟩⟩
  | load h1 => exact ⟨g,hg,(keeps_inv g i).load h hi h1⟩
  | store h1 => exact ⟨g,hg,(keeps_inv g i).store h hi h1⟩
  | kfault h1 => exact ⟨g,hg,(keeps_inv g i).kfault h hi h1⟩

theorem step_inv {g : Ghost} {Q : Ghost → Prop} {k k' : Kernel} {i : Fin NPROC} {op : Op} {r : Ret}
    (h : KInv g k) (hg : Q g) (hw : g.watch false → g.watch true) (hc : CanStep k i op)
    (hfork : op = .fork → Copies g Q eagerCopy k i)
    (hcow : op = .forkcow → Copies g Q copyuvmcow k i)
    (hs : step k i op = .ok (k', r)) : ∃ g', Q g' ∧ KInv g' k' := by
  obtain ⟨k1,he,hend⟩ := step_effect hc hs
  obtain ⟨g1,hg1,h1⟩ := effect_inv h hg hw (canStep_space hc) hfork hcow he
  rcases hend with rfl | ⟨hi,hx⟩
  · exact ⟨g1,hg1,h1⟩
  · exact ⟨g1,hg1,exit_inv h1 hi hx⟩

theorem reach_inv {m : Machine} {C : Kernel → Fin NPROC → Op → Prop} {Q : Ghost → Prop}
    {w : Bool → Prop} (hw : ∀ g, Q g → g.watch = w) (hmono : w false → w true)
    (h0 : Q (clean w))
    (hfork : ∀ g k i, Q g → KInv g k → (k.table.slot i).state.hasSpace = true →
      C k i .fork → Copies g Q eagerCopy k i)
    (hcow : ∀ g k i, Q g → KInv g k → (k.table.slot i).state.hasSpace = true →
      C k i .forkcow → Copies g Q copyuvmcow k i)
    {k : Kernel} (h : Reach m C k) : ∃ g, Q g ∧ KInv g k := by
  induction h with
  | boot h => exact ⟨clean w,h0,(boot_booted h).inv w⟩
  | step hk hc hC hs ih =>
    obtain ⟨g,hg,hki⟩ := ih
    have hi := canStep_space hc
    refine step_inv hki hg (by rw [hw g hg]; exact hmono) hc ?_ ?_ hs
    · rintro rfl
      exact hfork g _ _ hg hki hi hC
    · rintro rfl
      exact hcow g _ _ hg hki hi hC

theorem Reach.mono {m : Machine} {C C' : Kernel → Fin NPROC → Op → Prop} {k : Kernel}
    (hC : ∀ k i op, C k i op → C' k i op) (h : Reach m C k) : Reach m C' k := by
  induction h with
  | boot h => exact .boot h
  | step hk hc hc' hs ih => exact .step ih hc (hC _ _ _ hc') hs

theorem entry_dir {k : Kernel} {i : Fin NPROC} {d : PageDir} (hd : k.pgdir i = some d) (va : ℕ) :
    k.entry i va = d.leaf va := by
  rw [Kernel.entry, hd]

/-- The pages of a process that a fork visits. -/
def Visits (k : Kernel) (i : Fin NPROC) (p : Pte) : Prop :=
  ∃ v, v*PGSIZE < (k.table.slot i).sz ∧ k.entry i (v*PGSIZE) = p ∧ has p PTE_P = true

theorem visits_of {k : Kernel} {i : Fin NPROC} {d : PageDir} {v : ℕ} (hd : k.pgdir i = some d)
    (hv : v*PGSIZE < 0+pageCount (k.table.slot i).sz*PGSIZE)
    (hP : has (d.leaf (v*PGSIZE)) PTE_P = true) : Visits k i (d.leaf (v*PGSIZE)) := by
  refine ⟨v,?_,?_,hP⟩
  · unfold pageCount PGSIZE at *
    omega
  · exact entry_dir hd _

theorem copyuvmcow_copies {g : Ghost} {Q : Ghost → Prop} {k : Kernel} {i : Fin NPROC}
    (h : KInv g k) (hg : Q g) (hi : (k.table.slot i).state.hasSpace = true)
    (hu : ∀ p, Visits k i p → g.u (pteFrame p) = 0) : Copies g Q copyuvmcow k i := by
  intro d hd own ph ph' d' r hb _ hc
  have hsz := (h.space i _ (spaces_slot hi)).2.2
  have hlen := others_length k i
  exact ⟨g,hg,copyuvmcow_books (by omega) (by omega)
    (fun v hv _ hlt hP => hu _ (visits_of hd hlt hP)) hb hc⟩

theorem KInv.visited {g : Ghost} {k : Kernel} {i : Fin NPROC} {p : Pte} (h : KInv g k)
    (hi : (k.table.slot i).state.hasSpace = true) (hv : Visits k i p) :
    0 < maps (dirs k) (pteFrame p) := by
  obtain ⟨v,hv,he,hP⟩ := hv
  have hn := spaces_slot hi
  obtain ⟨d,hd,-,hperm⟩ := h.split hn
  have hsz := (h.space i _ hn).2.2
  rw [entry_dir hd] at he
  have hlt : v < UPAGES := by
    rw [UPAGES_eq]
    unfold KERNBASE PGSIZE at *
    omega
  have h1 : 0 < mapCnt d (pteFrame p) := by
    apply mapCnt_pos hlt
    rw [MapsTo, he]
    exact ⟨hP,rfl⟩
  exact lt_of_lt_of_le h1 (mapCnt_le_maps (hperm.mem_iff.mpr List.mem_cons_self) _)

theorem KInv.counted {g : Ghost} {k : Kernel} {i : Fin NPROC} {p : Pte} (h : KInv g k)
    (hi : (k.table.slot i).state.hasSpace = true) (hv : Visits k i p)
    (hr : k.phys.pgRefcount (pteFrame p) ≠ 0) : g.u (pteFrame p) = 0 := by
  have hpos := h.visited hi hv
  obtain ⟨P,hb,-⟩ := h.stock
  have hc := hb.counted (pteFrame p)
  rcases hb.single (pteFrame p) with hu | hu
  · exact hu
  · omega

end Xv6.Kern
