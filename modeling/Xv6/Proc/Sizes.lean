import Xv6.Proc.Spaces

/-!
# Sizes over whole runs

In every run, whatever the calls, every address space ends below `KERNBASE`: a size
is only ever copied by a fork or returned by `allocuvm` and `deallocuvm`.
-/

set_option autoImplicit false

namespace Xv6.Kern
open Xv6.Mmu Xv6.Kalloc Xv6.Paging Xv6.Table
open Xv6.GrowSpec Kernel

section
variable {ph ph' : Phys} {d d' : PageDir} {oldsz newsz r : ℕ}

theorem resize_size {n : ℤ} (hsz : oldsz < KERNBASE)
    (h : resize ph d oldsz n = .ok (ph', d', r)) : r < KERNBASE := by
  rw [resize] at h
  split at h
  · have := allocuvm_size h
    unfold KERNBASE at *
    omega
  · have := MapSpec.deallocuvm_size h
    omega

end

/-- Every address space ends below `KERNBASE`. -/
def Low (k : Kernel) : Prop := ∀ i n, k.table.spaces i = some n → n < KERNBASE

section
variable {k k' : Kernel} {i : Fin NPROC}

theorem Low.of_same (h : Low k) (ht : k'.table.spaces = k.table.spaces) : Low k' := by
  intro j n hj
  rw [ht] at hj
  exact h j n hj

theorem exit_low (h : Low k) (hi : (k.table.slot i).state.hasSpace = true)
    (he : k.exit i = .ok k') : Low k' := by
  obtain ⟨-,ph,t,o,-,rfl⟩ := exit_cases he
  exact h.of_same (Ptable.exit_spaces hi)

theorem keeps_low (i : Fin NPROC) : Keeps Low i where
  fault h _ _ _ := h.of_same rfl
  kill h := h.of_same (Ptable.set_spaces rfl rfl)
  exit h hi he := exit_low h hi he
  poke h := h.of_same rfl

theorem forkWith_low {copy : Phys → PageDir → ℕ → Except Halt (Phys × PageDir × Option PageDir)}
    {r : ℤ} (h : Low k) (hi : (k.table.slot i).state.hasSpace = true)
    (he : forkWith copy k i = .ok (k', r)) : Low k' := by
  cases forkWith_forks hi he with
  | full => exact h
  | noStack hu => exact h.of_same (unclaim_spaces (Ptable.findUnused_state hu))
  | noCopy hu hpi hl hd hc hf => exact h.of_same (unclaim_spaces (Ptable.findUnused_state hu))
  | child hu hpi hl hd hc ho =>
    intro j n hj
    rw [forked_spaces hpi] at hj
    split at hj
    · cases hj
      exact h i _ (spaces_slot hi)
    · exact h j n hj

theorem setSz_low {n : ℕ} (h : Low k) (hn : n < KERNBASE)
    (ht : k'.table = k.table.setSz i n) : Low k' := by
  intro j m hj
  rw [ht, Ptable.setSz_spaces] at hj
  split at hj
  · rw [Option.map_eq_some_iff] at hj
    obtain ⟨_,-,rfl⟩ := hj
    exact hn
  · exact h j m hj

theorem wait_low {r : Ret} (h : Low k) (hi : (k.table.slot i).state.hasSpace = true)
    (he : k.wait i = .ok (k', r)) : Low k' := by
  have hwake : (k.table.wake i).spaces = k.table.spaces := Ptable.set_spaces rfl rfl
  rcases wait_cases he with ⟨p,f,d,ph,ph1,-,-,-,-,-,rfl,-⟩ | ⟨-,⟨-,rfl,-⟩ | ⟨-,rfl,-⟩⟩
  · intro j n hj
    dsimp only at hj
    rw [reap_spaces, hwake] at hj
    split at hj
    · cases hj
    · exact h j n hj
  · exact h.of_same hwake
  · exact h.of_same ((sleep_spaces hi).trans hwake)

theorem exec_low {file : Option (List UInt8)} {argv : List (List UInt8)} {r : ℤ} (h : Low k)
    (he : k.exec i file argv = .ok (k', r)) : Low k' := by
  rcases exec_cases he with ⟨rfl,-⟩ | ⟨bytes,ph,q,-,h1,⟨-,rfl,-⟩ | ⟨d,sz,old,ph1,rfl,-,-,rfl,-⟩⟩
  · exact h
  · exact h
  · exact setSz_low h (Exec.image_size h1) rfl

theorem sbrk_low {n r : ℤ} (h : Low k) (hi : (k.table.slot i).state.hasSpace = true)
    (he : k.sbrk i n = .ok (k', r)) : Low k' := by
  rcases sbrk_cases he with ⟨-,rfl,-⟩ | ⟨d,ph,d',s,-,-,hr,⟨-,rfl,-⟩ | ⟨-,rfl,-⟩⟩
  · exact h
  · exact h
  · exact setSz_low h (resize_size (h i _ (spaces_slot hi)) hr) rfl

theorem effect_low {op : Op} (h : Low k) (hi : (k.table.slot i).state.hasSpace = true)
    (he : Effect k i op k') : Low k' := by
  cases he with
  | idle => exact h
  | fork h1 => exact forkWith_low h hi h1
  | forkcow h1 => exact forkWith_low h hi h1
  | exec h1 => exact exec_low h h1
  | sbrk h1 => exact sbrk_low h hi h1
  | wait h1 => exact wait_low h hi h1
  | kill h1 => exact h.of_same (Ptable.killPid_spaces h1)
  | pipe h1 =>
    obtain ⟨ph,t,o,q,-,rfl⟩ := syspipe_cases h1
    exact h
  | close h1 =>
    obtain ⟨ph,t,o,q,-,rfl⟩ := sysclose_cases h1
    exact h
  | dup h1 =>
    obtain ⟨t,o,q,-,rfl⟩ := sysdup_cases h1
    exact h
  | load h1 => exact (keeps_low i).load h hi h1
  | store h1 => exact (keeps_low i).store h hi h1
  | kfault h1 => exact (keeps_low i).kfault h hi h1

end

theorem reach_low {m : Machine} {C : Kernel → Fin NPROC → Op → Prop} {k : Kernel}
    (h : Reach m C k) : Low k := by
  induction h with
  | boot h =>
    intro i n hn
    exact ((boot_booted h).inv (fun _ => True) |>.space i n hn).2.2
  | step hk hc hC hs ih =>
    obtain ⟨k1,he,hend⟩ := step_effect hc hs
    have h1 := effect_low ih (canStep_space hc) he
    rcases hend with rfl | ⟨hi,hx⟩
    · exact h1
    · exact exit_low h1 hi hx

end Xv6.Kern
