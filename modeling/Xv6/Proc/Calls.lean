import Xv6.Proc.Kernel

/-!
# How the calls return

For each call of the kernel, the ways it can return and the state it leaves in each. The
invariants of later modules split on these and never unfold the calls.
-/

set_option autoImplicit false

namespace Xv6.Kern
open Xv6.Mmu Xv6.Kalloc Xv6.Paging Xv6.Uvm Xv6.Files Xv6.Halting Kernel

section
variable {k k' : Kernel} {i : Fin NPROC} {n z : ℤ} {r : Ret} {va : ℕ}

theorem dir_eq {d : PageDir} (h : k.dir i = .ok d) : k.pgdir i = some d := by
  rw [Kernel.dir] at h
  split at h
  · cases h
  · next d0 h0 =>
    cases h
    exact h0

theorem exit_cases (h : k.exit i = .ok k') : i ≠ k.table.initproc ∧ ∃ ph t o,
    closeAll (List.finRange NOFILE) k.phys k.files (k.ofile i) = .ok (ph, t, o) ∧
    k' = { k with phys := ph, files := t, ofile := Function.update k.ofile i o,
                  table := k.table.exit i } := by
  rw [Kernel.exit] at h
  split at h
  · cases h
  · next hi =>
    obtain ⟨⟨ph,t,o⟩,h1,h2⟩ := bind_ok.mp h
    cases h2
    exact ⟨hi,ph,t,o,h1,rfl⟩

theorem exec_cases {file : Option (List UInt8)} {argv : List (List UInt8)}
    (h : k.exec i file argv = .ok (k', z)) :
    (k' = k ∧ z = -1) ∨ ∃ bytes ph q, file = some bytes ∧
      Exec.image k.phys bytes argv = .ok (ph, q) ∧
      (q = none ∧ k' = { k with phys := ph } ∧ z = -1 ∨
      ∃ d sz old ph1, q = some (d, sz) ∧ k.pgdir i = some old ∧ freevm ph old = .ok ph1 ∧
        k' = { k.setDir i ph1 d with table := k.table.setSz i sz } ∧ z = 0) := by
  cases file with
  | none =>
    cases h
    exact Or.inl ⟨rfl,rfl⟩
  | some bytes =>
    obtain ⟨⟨ph,_ | ⟨d,sz⟩⟩,h1,h⟩ := bind_ok.mp h
    · cases h
      exact Or.inr ⟨bytes,ph,none,rfl,h1,Or.inl ⟨rfl,rfl,rfl⟩⟩
    · obtain ⟨old,hd,h⟩ := bind_ok.mp h
      obtain ⟨ph1,h2,h3⟩ := bind_ok.mp h
      cases h3
      exact Or.inr ⟨bytes,ph,_,rfl,h1,Or.inr ⟨d,sz,old,ph1,rfl,dir_eq hd,h2,rfl,rfl⟩⟩

theorem sbrk_cases (h : k.sbrk i n = .ok (k', z)) :
    (n = 0 ∧ k' = k ∧ z = (k.table.slot i).sz) ∨
    ∃ d ph d' s, n ≠ 0 ∧ k.pgdir i = some d ∧
      resize k.phys d (k.table.slot i).sz n = .ok (ph, d', s) ∧
      (s = 0 ∧ k' = k.setDir i ph d' ∧ z = -1 ∨
      s ≠ 0 ∧ k' = { k.setDir i ph d' with table := k.table.setSz i s } ∧
        z = (k.table.slot i).sz) := by
  rw [Kernel.sbrk] at h
  dsimp only at h
  split at h
  · next hn =>
    cases h
    exact Or.inl ⟨hn,rfl,rfl⟩
  · next hn =>
    obtain ⟨d,hd,h⟩ := bind_ok.mp h
    obtain ⟨⟨ph,d',s⟩,h1,h⟩ := bind_ok.mp h
    refine Or.inr ⟨d,ph,d',s,hn,dir_eq hd,h1,?_⟩
    dsimp only at h
    split at h
    · next hs =>
      cases h
      exact Or.inl ⟨hs,rfl,rfl⟩
    · next hs =>
      cases h
      exact Or.inr ⟨hs,rfl,rfl⟩

theorem wait_cases (h : k.wait i = .ok (k', r)) :
    (∃ p f d ph ph1, (k.table.wake i).findZombie i = some p ∧ k.kstack p = some f ∧
      k.pgdir p = some d ∧ kfree k.phys f = .ok ph ∧ freevm ph d = .ok ph1 ∧
      k' = { k with phys := ph1, table := (k.table.wake i).reap p,
                    kstack := Function.update k.kstack p none } ∧
      r = .val ((k.table.wake i).slot p).pid) ∨
    (k.table.wake i).findZombie i = none ∧
      ((!(k.table.wake i).haveKids i || ((k.table.wake i).slot i).killed) = true ∧
        k' = { k with table := k.table.wake i } ∧ r = .val (-1) ∨
      (!(k.table.wake i).haveKids i || ((k.table.wake i).slot i).killed) ≠ true ∧
        k' = { k with table := (k.table.wake i).sleep i } ∧ r = .asleep) := by
  rw [Kernel.wait] at h
  dsimp only at h
  split at h
  · next p hz =>
    obtain ⟨k1,h1,h⟩ := bind_ok.mp h
    rw [Kernel.freeStack] at h1
    split at h1
    · cases h1
    · next f hf =>
      obtain ⟨ph,h2,h3⟩ := bind_ok.mp h1
      cases h3
      dsimp only at h
      split at h
      · cases h
      · next d hd =>
        obtain ⟨ph1,h4,h5⟩ := bind_ok.mp h
        cases h5
        exact Or.inl ⟨p,f,d,ph,ph1,hz,hf,hd,h2,h4,rfl,rfl⟩
  · next hz =>
    refine Or.inr ⟨hz,?_⟩
    split at h
    · next hc =>
      cases h
      exact Or.inl ⟨hc,rfl,rfl⟩
    · next hc =>
      cases h
      exact Or.inr ⟨hc,rfl,rfl⟩

theorem syspipe_cases (h : k.syspipe i = .ok (k', z)) : ∃ ph t o q,
    Files.syspipe k.phys k.files (k.ofile i) = .ok (ph, t, o, q) ∧
    k' = { k with phys := ph, files := t, ofile := Function.update k.ofile i o } := by
  obtain ⟨⟨ph,t,o,q⟩,h1,h2⟩ := bind_ok.mp h
  cases h2
  exact ⟨_,_,_,_,h1,rfl⟩

theorem sysclose_cases {fd : Fin NOFILE} (h : k.sysclose i fd = .ok (k', z)) : ∃ ph t o q,
    Files.sysclose k.phys k.files (k.ofile i) fd = .ok (ph, t, o, q) ∧
    k' = { k with phys := ph, files := t, ofile := Function.update k.ofile i o } := by
  obtain ⟨⟨ph,t,o,q⟩,h1,h2⟩ := bind_ok.mp h
  cases h2
  exact ⟨_,_,_,_,h1,rfl⟩

theorem sysdup_cases {fd : Fin NOFILE} (h : k.sysdup i fd = .ok (k', z)) : ∃ t o q,
    Files.sysdup k.files (k.ofile i) fd = .ok (t, o, q) ∧
    k' = { k with files := t, ofile := Function.update k.ofile i o } := by
  obtain ⟨⟨t,o,q⟩,h1,h2⟩ := bind_ok.mp h
  cases h2
  exact ⟨_,_,_,h1,rfl⟩

theorem fault_cases {again : Bool} (h : k.fault i va = .ok (k', again)) :
    ∃ d ph d' killed, k.dir i = .ok d ∧ pagefault k.phys d va = .ok (ph, d', killed) ∧
      (killed = true ∧ again = false ∧
        Kernel.exit { k.setDir i ph d' with table := k.table.kill i } i = .ok k' ∨
      killed = false ∧ again = true ∧ k' = k.setDir i ph d') := by
  obtain ⟨d,hd,h⟩ := bind_ok.mp h
  obtain ⟨⟨ph,d',killed⟩,h1,h⟩ := bind_ok.mp h
  refine ⟨d,ph,d',killed,hd,h1,?_⟩
  cases killed with
  | true =>
    obtain ⟨k1,h2,h3⟩ := bind_ok.mp h
    cases h3
    exact Or.inl ⟨rfl,rfl,h2⟩
  | false =>
    cases h
    exact Or.inr ⟨rfl,rfl,rfl⟩

theorem load_cases (h : k.load i va = .ok (k', r)) :
    (∃ b, k.peek i va = some b ∧ k' = k ∧ r = .byte b) ∨
    k.peek i va = none ∧ r = .gone ∧ ∃ again, k.fault i va = .ok (k', again) := by
  rw [Kernel.load] at h
  split at h
  · next b hb =>
    cases h
    exact Or.inl ⟨b,hb,rfl,rfl⟩
  · next hb =>
    obtain ⟨⟨k1,again⟩,h1,h2⟩ := bind_ok.mp h
    cases h2
    exact Or.inr ⟨hb,rfl,again,h1⟩

theorem store_cases {b : UInt8} (h : k.store i va b = .ok (k', r)) :
    (writable (k.entry i va) = true ∧ k' = k.poke i va b ∧ r = .stored) ∨
    (writable (k.entry i va) = false ∧ ∃ k1 again, k.fault i va = .ok (k1, again) ∧
      (again = true ∧ k' = k1.poke i va b ∧ r = .stored ∨ again = false ∧ k' = k1 ∧ r = .gone)) := by
  rw [Kernel.store] at h
  split at h
  · next hw =>
    cases h
    exact Or.inl ⟨hw,rfl,rfl⟩
  · next hw =>
    obtain ⟨⟨k1,again⟩,h1,h⟩ := bind_ok.mp h
    refine Or.inr ⟨Bool.eq_false_iff.mpr hw,k1,again,h1,?_⟩
    cases again with
    | true =>
      cases h
      exact Or.inl ⟨rfl,rfl,rfl⟩
    | false =>
      cases h
      exact Or.inr ⟨rfl,rfl,rfl⟩

theorem kfault_cases (h : k.kfault i va = .ok (k', r)) :
    k' = k ∨ ∃ d ph d' killed, k.dir i = .ok d ∧
      pagefault k.phys d va = .ok (ph, d', killed) ∧
      k' = if killed then { k.setDir i ph d' with table := k.table.kill i }
        else k.setDir i ph d' := by
  rw [Kernel.kfault] at h
  split at h
  · cases h
    exact Or.inl rfl
  · obtain ⟨d,hd,h⟩ := bind_ok.mp h
    obtain ⟨⟨ph,d',killed⟩,h1,h2⟩ := bind_ok.mp h
    cases h2
    exact Or.inr ⟨d,ph,d',killed,hd,h1,rfl⟩

end

end Xv6.Kern
