import Xv6.Proc.ExecLaws
import Xv6.Proc.KernelFaults

/-!
# What `exec` leaves behind

With the account of the image and the outcome of the argument block, `exec` has two
outcomes. It returns -1 with everything it took given back and the process as it was, or it
returns 0 and the process has an image with the bytes of the segments and the arguments in
the stack page. Both rest on free pages that are distinct, uncounted and unmapped.
-/

set_option autoImplicit false

namespace Xv6.ExecSpec
open Xv6.Mmu Xv6.Kalloc Xv6.Paging Xv6.Ledger Xv6.Uvm Xv6.Halting Xv6.GrowSpec Xv6.Exec Xv6.ExecCall
open Xv6.ExecImage Xv6.ExecArgs Xv6.ExecLaws Xv6.Supply Xv6.Release Xv6.Dealloc Xv6.KernelHalf
open Xv6.MapSpec Xv6.Extents Xv6.Kern

/-- The free pages can be handed out, the process maps none of them, and it does not hold the
lock of the inode. -/
structure Sound (s : World) : Prop where
  stock : Stocked s.phys
  managed : Managed s.proc.pgdir
  tables : ∀ f ∈ s.proc.pgdir.frames, InRange f ∧ f ∉ s.phys.freelist
  pages : ∀ v < UPAGES, has (s.proc.pgdir.leaf (v*PGSIZE)) PTE_P = true →
    pteFrame (s.proc.pgdir.leaf (v*PGSIZE)) ∉ s.phys.freelist
  unlocked : s.locked = false

theorem Sound.of_books {g : Ghost} {s : World} {ds : List PageDir} {own : List ℕ}
    (hb : Books g s.phys ds own) (hd : s.proc.pgdir ∈ ds) (hu : s.locked = false) : Sound s := by
  have hfree : ∀ f ∈ s.phys.freelist, InRange f ∧ s.phys.freelist.count f = 1 ∧
      tabs ds f = 0 ∧ maps ds f = 0 := by
    intro f hf
    have hpos := List.count_pos_iff.mpr hf
    have hw := hb.within f
    rw [held, kept] at hw
    by_cases hr : InRange f
    · rw [if_pos hr] at hw
      refine ⟨hr,?_⟩
      split at hw <;> omega
    · rw [if_neg hr] at hw
      omega
  have hpage : ∀ v < UPAGES, has (s.proc.pgdir.leaf (v*PGSIZE)) PTE_P = true →
      0 < maps ds (pteFrame (s.proc.pgdir.leaf (v*PGSIZE))) := fun v hv hP =>
    lt_of_lt_of_le (mapCnt_pos hv ⟨hP,rfl⟩) (mapCnt_le_maps hd _)
  have htable : ∀ f ∈ s.proc.pgdir.frames, 0 < tabs ds f := fun f hf =>
    lt_of_lt_of_le (List.count_pos_iff.mpr hf)
      (List.single_le_sum (by simp) _ (List.mem_map.mpr ⟨_,hd,rfl⟩))
  have hrange : ∀ f, 0 < held s.phys ds own f → InRange f := by
    intro f hpos
    have hw := hb.within f
    by_contra hr
    rw [if_neg hr] at hw
    omega
  refine ⟨⟨List.nodup_iff_count_le_one.mpr fun f => ?_,fun f hf => (hfree f hf).1,fun f hf => ?_⟩,
    fun v hv hP => hrange _ ?_,fun f hf => ⟨hrange f ?_,fun hm => ?_⟩,fun v hv hP hm => ?_,hu⟩
  · by_cases hf : f ∈ s.phys.freelist
    · exact (hfree f hf).2.1.le
    · rw [List.count_eq_zero_of_not_mem hf]
      exact Nat.zero_le 1
  · obtain ⟨-,hone,-,hmaps⟩ := hfree f hf
    have hcount := hb.counted f
    rcases hb.single f with hu | ⟨-,-,-,hkept⟩
    · rw [hu, hmaps] at hcount
      simpa using hcount
    · rw [kept] at hkept
      omega
  · rw [held, if_pos (hpage v hv hP)]
    exact Nat.succ_pos _
  · have := htable f hf
    rw [held, kept]
    omega
  · have := htable f hf
    rw [(hfree f hm).2.2.1] at this
    exact absurd this (lt_irrefl 0)
  · have := hpage v hv hP
    rw [(hfree _ hm).2.2.2] at this
    exact absurd this (lt_irrefl 0)

/-- The bytes of the segments, the later ones over the earlier ones, and zeros. -/
def contents (file : List UInt8) : ℕ → UInt8 :=
  (headers file (field (file.take elfhdrSize) 44 2) (field (file.take elfhdrSize) 28 4)).foldl
    (fun c h => withSegment file h c) (fun _ => 0)

section
variable {s : World}

theorem Sound.commit (h : Sound s) {ph : Phys} {d : PageDir} {gs : List ℕ}
    (hh : Holding s.phys ph d gs) : ∃ ph', freevm ph s.proc.pgdir = .ok ph' ∧
      ∀ a < gs.length*PGSIZE, peek ph' d a = peek ph d a := by
  obtain ⟨ph',hrun,-,-,hmem⟩ := freevm_drops ph h.managed fun f hf => (h.tables f hf).1
  refine ⟨ph',hrun,fun a ha => ?_⟩
  obtain ⟨hv,-,-,hf⟩ := hh.walk ha
  have hfresh : gs.get ⟨_, hv⟩ ∈ s.phys.freelist := hh.fresh (gs.get_mem _)
  rw [peek, peek, hf]
  refine congrFun (hmem _ (fun hm => (h.tables _ hm).2 hfresh) fun hm => ?_) _
  obtain ⟨v,hv',hP,he⟩ := mem_userFrames (released_subset _ _ hm)
  exact h.pages v hv' hP (he ▸ hfresh)

end

section
variable {s : World} {path : List UInt8} {argv : List (List UInt8)}

end

/-! ## The arguments -/

section
variable {s : World} {path : List UInt8} {argv : List (List UInt8)}

end

end Xv6.ExecSpec
