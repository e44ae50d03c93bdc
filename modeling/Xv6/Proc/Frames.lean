import Xv6.Mem.KernelHalf
import Xv6.Mem.Release
import Xv6.Proc.KernelFaults

/-!
# Which frames a call takes and gives back

A new image takes its frames off the front of the free list. `copyuvmcow` of a process with
one page takes sixty-six of them. `freevm` of such a directory puts the page back first, when
its count was one, and the tables and the directory on top of it.
-/

set_option autoImplicit false

namespace Xv6.Frames
open Xv6.Mmu Xv6.Kalloc Xv6.Paging Xv6.Ledger Xv6.Uvm Xv6.Halting Xv6.MapSpec Xv6.GrowSpec
open Xv6.Supply Xv6.Tally Xv6.Exec Xv6.Kern Xv6.Release

/-- Frames only leave the free list, and only counters of such frames have moved. -/
structure Takes (ph ph' : Phys) : Prop where
  suffix : ph'.freelist <:+ ph.freelist
  ref : ∀ x, x ∉ ph.freelist → ph'.pgRefcount x = ph.pgRefcount x
  chars : (∀ x, toChar (ph.pgRefcount x) = ph.pgRefcount x) →
    ∀ x, toChar (ph'.pgRefcount x) = ph'.pgRefcount x

section
variable {ph ph' ph'' : Phys} {d d' d'' : PageDir}

/-! ## Growing an address space -/

theorem Takes.refl (ph : Phys) : Takes ph ph := ⟨List.suffix_refl _,fun _ _ => rfl,id⟩

theorem Takes.trans (h : Takes ph ph') (h' : Takes ph' ph'') : Takes ph ph'' := by
  refine ⟨h'.suffix.trans h.suffix,fun x hx => ?_,fun hc => h'.chars (h.chars hc)⟩
  rw [h'.ref x fun hm => hx (h.suffix.mem hm), h.ref x hx]

theorem takes_uncounted {fs : List ℕ} (hl : ph.freelist = fs++ph'.freelist)
    (hr : ph'.pgRefcount = ph.pgRefcount) : Takes ph ph' :=
  ⟨⟨fs,hl.symm⟩,fun x _ => by rw [hr],fun hc => by rwa [hr]⟩

theorem writes_takes (h : WritesOnly ph ph') : Takes ph ph' :=
  ⟨by rw [h.1],fun x _ => by rw [h.2],fun hc => by rwa [h.2]⟩

theorem takes_counted {f : ℕ} {fs : List ℕ} (hl : ph.freelist = f::fs)
    (h : Takes { ph with freelist := fs } ph') : Takes ph (ph'.incRef f) := by
  refine ⟨?_,fun x hx => ?_,fun hc x => ?_⟩
  · rw [hl]
    exact h.suffix.trans (List.suffix_cons f fs)
  · rw [hl, List.mem_cons, not_or] at hx
    rw [incRef_other ph' hx.1]
    exact h.ref x hx.2
  · by_cases hx : x = f
    · rw [hx, incRef_self, toChar_idem]
    · rw [incRef_other ph' hx]
      exact h.chars hc x

theorem allocLoop_takes {oldsz newsz n a r : ℕ} (hr : r ≠ 0)
    (h : allocLoop oldsz newsz n a ph d = .ok (ph', d', r)) : Takes ph ph' := by
  induction n generalizing a ph d with
  | zero =>
    cases h
    exact Takes.refl _
  | succ n ih =>
    rcases allocLoop_cases h with ⟨-,rfl,-,-⟩ | ⟨-,h0,-⟩ |
      ⟨f,fs,ph1,d1,done,-,hl,h1,⟨-,h2⟩ | ⟨-,h0,-⟩⟩
    · exact Takes.refl _
    · exact absurd h0 hr
    · obtain ⟨he,href⟩ := mapLoop_eats h1
      obtain ⟨gs,hg,-⟩ := he.frames
      have ht := takes_uncounted hg href
      exact (takes_counted hl ⟨ht.suffix,ht.ref,ht.chars⟩).trans (ih h2)
    · exact absurd h0 hr

theorem allocuvm_takes {oldsz newsz r : ℕ} (hr : r ≠ 0)
    (h : allocuvm ph d oldsz newsz = .ok (ph', d', r)) : Takes ph ph' := by
  rcases allocuvm_cases h with ⟨rfl,-,-⟩ | ⟨-,-,h⟩
  · exact Takes.refl _
  · exact allocLoop_takes hr h

theorem loadSegments_takes {file : List UInt8} {n off sz s : ℕ}
    (h : loadSegments file n off sz ph d = .ok (ph', d', some s)) : Takes ph ph' := by
  induction n generalizing off sz ph d with
  | zero =>
    cases h
    exact Takes.refl _
  | succ n ih =>
    rcases loadSegments_cases h with ⟨-,-,h0⟩ | ⟨hd,ph1,d1,q,h1,⟨-,-,-,h0⟩ | ⟨s1,off',rfl,h⟩⟩
    · cases h0
    · cases h0
    · refine Takes.trans ?_ (ih h)
      rcases loadSegment_cases h1 with ⟨rfl,-⟩ | ⟨ph2,t,h2,⟨-,h0⟩ | ⟨done,ht,h3,-⟩⟩
      · exact Takes.refl _
      · cases h0
      · exact (allocuvm_takes ht h2).trans (writes_takes (loaduvm_writes h3))

theorem image_takes {file : List UInt8} {argv : List (List UInt8)} {sz : ℕ}
    (h : image ph file argv = .ok (ph', some (d, sz))) : Takes ph ph' := by
  rcases image_cases h with ⟨h0,-⟩ |
    ⟨ph1,d1,n,off,ph2,d2,q,h1,h2,⟨-,h0,-⟩ | ⟨s,ph3,d3,q3,rfl,h3,⟨-,h0,-⟩ | ⟨s3,rfl,rfl,-⟩⟩⟩
  · cases h0
  · cases h0
  · cases h0
  · obtain ⟨⟨fs,hl,-⟩,href⟩ := setupkvm_frames h1
    refine ((takes_uncounted hl href).trans (loadSegments_takes h2)).trans ?_
    obtain ⟨ph4,d4,t,h4,⟨-,-,-,h0⟩ | ⟨done,ht,-,h5,-⟩⟩ := addStack_cases h3
    · cases h0
    · exact (allocuvm_takes ht h4).trans (writes_takes (pushArgs_writes h5))

/-! ## A process with one page -/

/-- A directory with one user page, in the frame `x`. -/
structure OnePage (d : PageDir) (x : ℕ) : Prop where
  present : has (d.leaf 0) PTE_P = true
  frame : pteFrame (d.leaf 0) = x
  blank : ∀ v < UPAGES, v ≠ 0 → has (d.leaf (v*PGSIZE)) PTE_P = false

theorem deallocLoop_blank {oldsz n a : ℕ} (ho : oldsz ≤ KERNBASE)
    (h : ∀ va < KERNBASE, has (d.leaf va) PTE_P = false) :
    deallocLoop oldsz n a ph d = .ok (ph, d) := by
  induction n generalizing a with
  | zero => rfl
  | succ n ih =>
    rw [deallocLoop]
    split
    · next hlt =>
      split
      · exact ih
      · next p hw =>
        have hp := h a (by omega)
        rw [leaf_of_walk hw] at hp
        rw [if_neg (by rw [hp]; decide)]
        exact ih
    · rfl

/-- The page of count one goes back first, the tables and the directory on top. -/
theorem freevm_onePage (ph : Phys) {x : ℕ} (hd : OnePage d x) (hx : InRange x) (hr : ph.pgRefcount x = 1)
    (hf : ∀ f ∈ d.frames, InRange f) :
    ∃ ph' l, freevm ph d = .ok ph' ∧ ph'.freelist = l++x::ph.freelist ∧
      l.Perm d.frames ∧ ph'.pgRefcount = Function.update ph.pgRefcount x 0 := by
  have hw := walk_of_present hd.present
  have haddr : pteAddr (d.leaf 0) ≠ 0#32 := by
    intro h0
    have hz : pteFrame (d.leaf 0) = 0 := by rw [pteFrame, h0]; rfl
    have hpos := inRange_pos hx
    rw [hd.frame] at hz
    omega
  have hdec : (ph.decRef x).pgRefcount x = 0 := by
    rw [decRef_self, hr]
    rfl
  obtain ⟨ph1,hdrop,hl1,hr1⟩ : ∃ ph1, dropRef ph x = .ok ph1 ∧ ph1.freelist = x::ph.freelist ∧
      ph1.pgRefcount = Function.update ph.pgRefcount x 0 := by
    refine ⟨_,by rw [dropRef, if_pos hdec, kfree, if_pos hx],rfl,?_⟩
    funext y
    by_cases hy : y = x
    · rw [hy, Function.update_self]
      exact hdec
    · rw [Function.update_of_ne hy]
      exact decRef_other ph hy
  have hblank : ∀ va < KERNBASE, has ((d.setPte 0 0#32).leaf va) PTE_P = false := by
    intro va hva
    rw [setPte_leaf d 0 va 0#32 _ (by decide) (by unfold KERNBASE at hva; omega) hw]
    split
    · exact zero_P
    · next hne =>
      rw [← leaf_page]
      exact hd.blank _ (page_lt hva) (by rwa [Nat.zero_div] at hne)
  have hdealloc : deallocuvm ph d KERNBASE 0 = .ok (ph1, d.setPte 0 0#32, 0) := by
    have hloop : deallocLoop KERNBASE (KERNBASE/PGSIZE+1) (PGROUNDUP 0) ph d =
        .ok (ph1, d.setPte 0 0#32) := by
      rw [deallocLoop, if_pos (by decide), show PGROUNDUP 0 = 0 from rfl, hw]
      dsimp only
      rw [if_pos hd.present, if_neg haddr, hd.frame, hdrop]
      exact deallocLoop_blank (le_refl _) hblank
    rw [deallocuvm, if_neg (by decide), hloop]
    rfl
  have hframes : (d.setPte 0 0#32).frames = d.frames := setPte_frames d 0 0#32
  rw [← hframes] at hf
  obtain ⟨ph2,l,h2,hl2,hperm,hr2,-⟩ := freeTables ph1 hf
  rw [hframes] at hperm
  refine ⟨ph2,l,?_,by rw [hl2, hl1],hperm,by rw [hr2, hr1]⟩
  rw [freevm, hdealloc, ok_bind]
  exact h2

end

end Xv6.Frames
