import Xv6.Mem.Passes

/-!
# Unmapping and freeing

`deallocuvm` clears exactly the present entries of its range, whatever page
tables it skips, and keeps the ledger. `freevm` then returns the page tables and
the directory itself, so that the directory leaves the ledger. Neither touches
the contents of a page that stays mapped.
-/

set_option autoImplicit false

namespace Xv6.FreeSpec
open Xv6.Mmu Xv6.Kalloc Xv6.Paging Xv6.Ledger Xv6.Uvm Xv6.MapSpec

def cleared (p : Pte) : Pte := if has p PTE_P then 0#32 else p

theorem cleared_P (p : Pte) : has (cleared p) PTE_P = false := by
  unfold cleared
  split
  · rfl
  · next h => simpa using h

theorem skip_addr {a : ℕ} (ha : a < KERNBASE) :
    PGADDR (PDX a+1) 0 0-PGSIZE+PGSIZE = (a/2^22+1)*2^22 := by
  unfold PGADDR PDX PGSIZE KERNBASE at *
  omega

theorem skipped_leaf {d : PageDir} {a v : ℕ} (hw : d.walk a = none) (hv : a ≤ v*PGSIZE)
    (hlt : v*PGSIZE < (a/2^22+1)*2^22) : d.leaf (v*PGSIZE) = 0#32 := by
  have hd : PDX (v*PGSIZE) = PDX a := by
    unfold PDX PGSIZE at *
    omega
  have hn : d.pde (PDX a) = none := by simpa [PageDir.walk] using hw
  simp [PageDir.leaf, PageDir.walk, hd, hn]

theorem deallocLoop_leaf {oldsz n a : ℕ} {ph ph' : Phys} {d d' : PageDir}
    (ho : oldsz ≤ KERNBASE) (ha : a%PGSIZE = 0) (hfuel : oldsz ≤ a+n*PGSIZE)
    (h : deallocLoop oldsz n a ph d = .ok (ph', d')) (v : ℕ) (hv : v < UPAGES) :
    d'.leaf (v*PGSIZE) = if a ≤ v*PGSIZE ∧ v*PGSIZE < oldsz then cleared (d.leaf (v*PGSIZE))
      else d.leaf (v*PGSIZE) := by
  induction n generalizing a ph d with
  | zero =>
    cases h
    rw [if_neg (by omega)]
  | succ n ih =>
    -- the pages at or after `a+PGSIZE` are the loop's, the page at `a` is this pass's
    have hsplit : a < oldsz → ((a ≤ v*PGSIZE ∧ v*PGSIZE < oldsz) ↔
        v = a/PGSIZE ∨ a+PGSIZE ≤ v*PGSIZE ∧ v*PGSIZE < oldsz) := by
      unfold PGSIZE at *
      omega
    have hnot : v = a/PGSIZE → ¬ (a+PGSIZE ≤ v*PGSIZE ∧ v*PGSIZE < oldsz) := by
      unfold PGSIZE at *
      omega
    have hnext : (a+PGSIZE)%PGSIZE = 0 := by unfold PGSIZE at *; omega
    have hrem : oldsz ≤ a+PGSIZE+n*PGSIZE := by unfold PGSIZE at *; omega
    rcases deallocLoop_cases h with
      ⟨hle,-,rfl⟩ | ⟨hlt,hw,h⟩ | ⟨p,hlt,hw,⟨hP,h⟩ | ⟨hP,-,ph1,-,h⟩⟩
    · rw [if_neg (by omega)]
    · rw [skip_addr (by omega)] at h
      rw [ih (by unfold PGSIZE at *; omega) (by unfold PGSIZE at *; omega) h]
      by_cases hs : (a/2^22+1)*2^22 ≤ v*PGSIZE
      · have : a ≤ v*PGSIZE := by omega
        simp only [hs, this]
      · rw [if_neg (by omega)]
        split
        · next hin => rw [skipped_leaf hw hin.1 (by omega)]; rfl
        · rfl
    · have hleaf : d.leaf (a/PGSIZE*PGSIZE) = p := by rw [leaf_page, leaf_of_walk hw]
      rw [ih hnext hrem h]
      by_cases he : v = a/PGSIZE
      · rw [if_neg (hnot he), if_pos ((hsplit hlt).mpr (Or.inl he)), he, hleaf, cleared, hP]
        rfl
      · simp only [hsplit hlt, he, false_or]
    · have hleaf : d.leaf (a/PGSIZE*PGSIZE) = p := by rw [leaf_page, leaf_of_walk hw]
      rw [ih hnext hrem h, setPte_leaf_page d a v p 0#32 (by omega) hv hw]
      by_cases he : v = a/PGSIZE
      · rw [if_neg (hnot he), if_pos he, if_pos ((hsplit hlt).mpr (Or.inl he)), he, hleaf,
          cleared, if_pos hP]
      · rw [if_neg he]
        simp only [hsplit hlt, he, false_or]

section
variable {g : Ghost} {rest : List PageDir} {own : List ℕ}

theorem unmap_mem {ph ph' : Phys} {d : PageDir} {a : ℕ} {p : Pte}
    (hb : Books g ph (d::rest) own) (hlen : rest.length ≤ 126)
    (hk : a < KERNBASE) (hw : d.walk a = some p) (hP : has p PTE_P = true)
    (h : dropRef ph (pteFrame p) = .ok ph') (x : ℕ) (hx : 0 < maps (d.setPte a 0#32::rest) x) :
    ph'.mem x = ph.mem x := by
  rw [dropRef] at h
  split at h
  · next h0 =>
    rw [Kalloc.kfree] at h
    split at h
    · cases h
      have hpos : 0 < maps (d::rest) (pteFrame p) := by
        have := mapped_of_walk hk hw hP
        rw [maps_cons]
        omega
      have hdec := hb.decRef_eq hlen hpos
      have hc := hb.counted (pteFrame p)
      have hm := setPte_maps rest hk hw 0#32 (pteFrame p)
      rw [hit_absent zero_P, hit_self p hP] at hm
      have hne : x ≠ pteFrame p := by
        rintro rfl
        rcases hb.single (pteFrame p) with hu | hu <;> omega
      exact Function.update_of_ne hne _ _
    · cases h
  · cases h
    rfl

theorem deallocLoop_total {oldsz n a : ℕ} {ph : Phys} {d : PageDir}
    (ho : oldsz ≤ KERNBASE) (hlen : rest.length ≤ 126) (hb : Books g ph (d::rest) own) :
    ∃ r, deallocLoop oldsz n a ph d = .ok r := by
  induction n generalizing a ph d with
  | zero => exact ⟨_,rfl⟩
  | succ n ih =>
    rw [deallocLoop]
    split
    · next hlt =>
      have hk : a < KERNBASE := by omega
      split
      · exact ih hb
      · next p hw =>
        split
        · next hP =>
          have hpos : 0 < maps (d::rest) (pteFrame p) := by
            have := mapped_of_walk hk hw hP
            rw [maps_cons]
            omega
          have hr := (hb.mapped hpos).1
          have hnz : pteAddr p ≠ 0#32 := by
            intro h0
            have : pteFrame p = 0 := by rw [pteFrame, h0]; rfl
            have := inRange_pos hr
            omega
          rw [if_neg hnz]
          have h1 : ∃ ph1, dropRef ph (pteFrame p) = .ok ph1 := by
            rw [dropRef]
            split
            · rw [Kalloc.kfree, if_pos hr]; exact ⟨_,rfl⟩
            · exact ⟨_,rfl⟩
          obtain ⟨ph1,h1⟩ := h1
          obtain ⟨r,hr⟩ := ih (a := a+PGSIZE) (hb.unmap hlen hk hw hP h1)
          exact ⟨r,by rw [h1]; exact hr⟩
        · exact ih hb
    · exact ⟨_,rfl⟩

theorem deallocuvm_books {oldsz newsz r : ℕ} {ph ph' : Phys} {d d' : PageDir}
    (ho : oldsz ≤ KERNBASE) (hlen : rest.length ≤ 126) (hb : Books g ph (d::rest) own)
    (h : deallocuvm ph d oldsz newsz = .ok (ph', d', r)) :
    Books g ph' (d'::rest) own ∧ ∀ x, 0 < maps (d'::rest) x → ph'.mem x = ph.mem x := by
  refine deallocuvm_keeps (P := fun ph1 d1 => Books g ph1 (d1::rest) own ∧
    ∀ x, 0 < maps (d1::rest) x → ph1.mem x = ph.mem x) ?_ ⟨hb,fun _ _ => rfl⟩ h
  rintro a p ph1 ph2 d1 hlt hw hP h2 ⟨hb1,hmem⟩
  have hk : a < KERNBASE := by omega
  refine ⟨hb1.unmap hlen hk hw hP h2,?_⟩
  intro x hx
  have hm := setPte_maps rest hk hw 0#32 x
  rw [hit_absent zero_P] at hm
  rw [unmap_mem hb1 hlen hk hw hP h2 x hx, hmem x (by omega)]

theorem deallocuvm_leaf {oldsz newsz r : ℕ} {ph ph' : Phys} {d d' : PageDir}
    (ho : oldsz ≤ KERNBASE) (h : deallocuvm ph d oldsz newsz = .ok (ph', d', r))
    (v : ℕ) (hv : v < UPAGES) :
    d'.leaf (v*PGSIZE) = if newsz ≤ v*PGSIZE ∧ v*PGSIZE < oldsz then
      cleared (d.leaf (v*PGSIZE)) else d.leaf (v*PGSIZE) := by
  rcases deallocuvm_cases h with ⟨hle,-,rfl,-⟩ | ⟨hlt,-,h⟩
  · rw [if_neg (by omega)]
  · rw [deallocLoop_leaf ho (by unfold PGROUNDUP PGSIZE; omega)
      (by unfold PGROUNDUP PGSIZE; omega) h v hv]
    have : PGROUNDUP newsz ≤ v*PGSIZE ↔ newsz ≤ v*PGSIZE := by
      unfold PGROUNDUP PGSIZE
      omega
    simp only [this]

theorem kfreeAll {l : List ℕ} {ph : Phys} {ds : List PageDir} (hb : Books g ph ds (l++own)) :
    ∃ ph', l.foldlM Kalloc.kfree ph = .ok ph' ∧ Books g ph' ds own ∧
      ∀ x, 0 < maps ds x → ph'.mem x = ph.mem x := by
  induction l generalizing ph with
  | nil => exact ⟨ph,rfl,hb,fun _ _ => rfl⟩
  | cons f l ih =>
    obtain ⟨hk,hb'⟩ := hb.kfree
    obtain ⟨ph',hl,hb'',hmem⟩ := ih hb'
    refine ⟨ph',?_,hb'',fun x hx => ?_⟩
    · rw [List.foldlM_cons, hk]
      exact hl
    · rw [hmem x hx]
      exact hb.kfree_mem hx

theorem freevm_books {ph : Phys} {d : PageDir} (hlen : rest.length ≤ 126)
    (hb : Books g ph (d::rest) own) :
    ∃ ph', freevm ph d = .ok ph' ∧ Books g ph' rest own ∧
      ∀ x, 0 < maps rest x → ph'.mem x = ph.mem x := by
  obtain ⟨⟨ph1,d1⟩,h1⟩ := deallocLoop_total (n := KERNBASE/PGSIZE+1) (a := PGROUNDUP 0)
    (le_refl KERNBASE) hlen hb
  have hd : deallocuvm ph d KERNBASE 0 = .ok (ph1, d1, 0) := by
    rw [deallocuvm, if_neg (by decide), h1]
    rfl
  obtain ⟨hb1,hmem1⟩ := deallocuvm_books (le_refl _) hlen hb hd
  have hnone : ∀ v < UPAGES, has (d1.leaf (v*PGSIZE)) PTE_P = false := by
    intro v hv
    rw [deallocuvm_leaf (le_refl _) hd v hv, if_pos, cleared_P]
    rw [UPAGES_eq] at hv
    unfold KERNBASE PGSIZE
    omega
  have hb2 := hb1.dropDir hnone
  have hb3 : Books g ph1 rest (((List.range NPDENTRIES).filterMap
      (fun i => (d1.pde i).map PageTable.frame))++(d1.frame::own)) :=
    hb2.perm (List.Perm.refl _) List.perm_middle.symm
  obtain ⟨ph2,h2,hb4,hmem2⟩ := kfreeAll hb3
  obtain ⟨h3,hb5⟩ := hb4.kfree
  refine ⟨_,?_,hb5,fun x hx => ?_⟩
  · rw [freevm, hd]
    simp only [bind, Except.bind]
    rw [h2]
    exact h3
  · have hx1 : 0 < maps (d1::rest) x := by rw [maps_cons]; omega
    rw [hb4.kfree_mem hx, hmem2 x hx, hmem1 x hx1]

end

end Xv6.FreeSpec
