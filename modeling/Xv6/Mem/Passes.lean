import Xv6.Mem.MapSpec

/-!
# One pass of the loops of `vm.c`

What a pass of each loop did when the loop returned, and which branch of the function around
it was taken. The proofs about the loops split on these cases and never unfold the loops.
-/

set_option autoImplicit false

namespace Xv6.MapSpec
open Xv6.Mmu Xv6.Kalloc Xv6.Paging Xv6.Uvm Xv6.Halting

section
variable {ph ph' : Phys} {d d' pgdir pgdir' : PageDir} {oldsz newsz n a i r : ℕ}

theorem mapLoop_ok {pa perm : Pte} {done : Bool}
    (h : mapLoop (n+1) ph d a pa perm = .ok (ph', d', done)) :
    (done = false ∧ walkpgdir ph d a true = (ph', d', none)) ∨
    ∃ ph1 d1 p, walkpgdir ph d a true = (ph1, d1, some p) ∧ has p PTE_P = false ∧
      mapLoop n ph1 (d1.setPte a (pa ||| perm ||| PTE_P)) ((a+PGSIZE)%2^32)
        (pa+BitVec.ofNat 32 PGSIZE) perm = .ok (ph', d', done) := by
  rw [mapLoop] at h
  rcases hw : walkpgdir ph d a true with ⟨ph1,d1,_ | p⟩ <;> rw [hw] at h
  · cases h
    exact Or.inl ⟨rfl,rfl⟩
  · dsimp only at h
    split at h
    · cases h
    · next hP => exact Or.inr ⟨ph1,d1,p,rfl,Bool.eq_false_iff.mpr hP,h⟩

theorem deallocLoop_cases (h : deallocLoop oldsz (n+1) a ph d = .ok (ph', d')) :
    (oldsz ≤ a ∧ ph' = ph ∧ d' = d) ∨
    (a < oldsz ∧ d.walk a = none ∧
      deallocLoop oldsz n (PGADDR (PDX a+1) 0 0-PGSIZE+PGSIZE) ph d = .ok (ph', d')) ∨
    ∃ p, a < oldsz ∧ d.walk a = some p ∧
      (has p PTE_P = false ∧ deallocLoop oldsz n (a+PGSIZE) ph d = .ok (ph', d') ∨
      has p PTE_P = true ∧ pteAddr p ≠ 0#32 ∧ ∃ ph1, dropRef ph (pteFrame p) = .ok ph1 ∧
        deallocLoop oldsz n (a+PGSIZE) ph1 (d.setPte a 0#32) = .ok (ph', d')) := by
  rw [deallocLoop] at h
  split at h
  · next hlt =>
    split at h
    · next hw => exact Or.inr (Or.inl ⟨hlt,hw,h⟩)
    · next p hw =>
      refine Or.inr (Or.inr ⟨p,hlt,hw,?_⟩)
      split at h
      · next hP =>
        split at h
        · cases h
        · next ha =>
          obtain ⟨ph1,h1,h⟩ := bind_ok.mp h
          exact Or.inr ⟨hP,ha,ph1,h1,h⟩
      · next hP => exact Or.inl ⟨Bool.eq_false_iff.mpr hP,h⟩
  · next hlt =>
    cases h
    exact Or.inl ⟨Nat.not_lt.mp hlt,rfl,rfl⟩

theorem deallocuvm_cases (h : deallocuvm ph d oldsz newsz = .ok (ph', d', r)) :
    (oldsz ≤ newsz ∧ ph' = ph ∧ d' = d ∧ r = oldsz) ∨
    (newsz < oldsz ∧ r = newsz ∧
      deallocLoop oldsz (oldsz/PGSIZE+1) (PGROUNDUP newsz) ph d = .ok (ph', d')) := by
  rw [deallocuvm] at h
  split at h
  · next hle =>
    cases h
    exact Or.inl ⟨hle,rfl,rfl,rfl⟩
  · next hle =>
    obtain ⟨⟨ph1,d1⟩,h1,h2⟩ := bind_ok.mp h
    cases h2
    exact Or.inr ⟨Nat.not_le.mp hle,rfl,h1⟩

theorem deallocuvm_size (h : deallocuvm ph d oldsz newsz = .ok (ph', d', r)) :
    r = min oldsz newsz := by
  rcases deallocuvm_cases h with ⟨hle,-,-,rfl⟩ | ⟨hlt,rfl,-⟩
  · exact (min_eq_left hle).symm
  · exact (min_eq_right hlt.le).symm

theorem deallocLoop_keeps {P : Phys → PageDir → Prop}
    (hstep : ∀ {a : ℕ} {p : Pte} {ph ph1 : Phys} {d : PageDir}, a < oldsz → d.walk a = some p →
      has p PTE_P = true → dropRef ph (pteFrame p) = .ok ph1 → P ph d → P ph1 (d.setPte a 0#32))
    (hP : P ph d) (h : deallocLoop oldsz n a ph d = .ok (ph', d')) : P ph' d' := by
  induction n generalizing a ph d with
  | zero =>
    cases h
    exact hP
  | succ n ih =>
    rcases deallocLoop_cases h with
      ⟨-,rfl,rfl⟩ | ⟨-,-,h⟩ | ⟨p,hlt,hw,⟨-,h⟩ | ⟨hp,-,ph1,h1,h⟩⟩
    · exact hP
    · exact ih hP h
    · exact ih hP h
    · exact ih (hstep hlt hw hp h1 hP) h

theorem deallocuvm_keeps {P : Phys → PageDir → Prop}
    (hstep : ∀ {a : ℕ} {p : Pte} {ph ph1 : Phys} {d : PageDir}, a < oldsz → d.walk a = some p →
      has p PTE_P = true → dropRef ph (pteFrame p) = .ok ph1 → P ph d → P ph1 (d.setPte a 0#32))
    (hP : P ph d) (h : deallocuvm ph d oldsz newsz = .ok (ph', d', r)) : P ph' d' := by
  rcases deallocuvm_cases h with ⟨-,rfl,rfl,-⟩ | ⟨-,-,h⟩
  · exact hP
  · exact deallocLoop_keeps hstep hP h

theorem allocLoop_cases (h : allocLoop oldsz newsz (n+1) a ph d = .ok (ph', d', r)) :
    (newsz ≤ a ∧ ph' = ph ∧ d' = d ∧ r = newsz) ∨
    (a < newsz ∧ r = 0 ∧ ∃ s, deallocuvm ph d newsz oldsz = .ok (ph', d', s)) ∨
    ∃ f fs ph1 d1 done, a < newsz ∧ ph.freelist = f::fs ∧
      mappages (Phys.fill { ph with freelist := fs } f (fun _ => 0)) d a PGSIZE (physAddr f)
        (PTE_W ||| PTE_U) = .ok (ph1, d1, done) ∧
      (done = true ∧ allocLoop oldsz newsz n (a+PGSIZE) (ph1.incRef f) d1 = .ok (ph', d', r) ∨
      done = false ∧ r = 0 ∧ ∃ ph2 s, deallocuvm ph1 d1 newsz oldsz = .ok (ph2, d', s) ∧
        kfree ph2 f = .ok ph') := by
  rw [allocLoop] at h
  split at h
  · next hlt =>
    rcases kalloc_cases ph with ⟨-,hk⟩ | ⟨f,fs,hl,hk⟩ <;> rw [hk] at h
    · obtain ⟨⟨ph1,d1,s⟩,h1,h2⟩ := bind_ok.mp h
      cases h2
      exact Or.inr (Or.inl ⟨hlt,rfl,s,h1⟩)
    · obtain ⟨⟨ph1,d1,done⟩,h1,h⟩ := bind_ok.mp h
      refine Or.inr (Or.inr ⟨f,fs,ph1,d1,done,hlt,hl,h1,?_⟩)
      cases done with
      | true => exact Or.inl ⟨rfl,h⟩
      | false =>
        obtain ⟨⟨ph2,d2,s⟩,h2,h⟩ := bind_ok.mp h
        obtain ⟨ph3,h3,h4⟩ := bind_ok.mp h
        cases h4
        exact Or.inr ⟨rfl,rfl,ph2,s,h2,h3⟩
  · next hlt =>
    cases h
    exact Or.inl ⟨Nat.not_lt.mp hlt,rfl,rfl,rfl⟩

theorem allocuvm_cases (h : allocuvm ph d oldsz newsz = .ok (ph', d', r)) :
    (ph' = ph ∧ d' = d ∧ (r = 0 ∧ KERNBASE ≤ newsz ∨ r = oldsz ∧ newsz < KERNBASE ∧ newsz < oldsz)) ∨
    (newsz < KERNBASE ∧ oldsz ≤ newsz ∧
      allocLoop oldsz newsz (newsz/PGSIZE+1) (PGROUNDUP oldsz) ph d = .ok (ph', d', r)) := by
  rw [allocuvm] at h
  split at h
  · next hk =>
    cases h
    exact Or.inl ⟨rfl,rfl,Or.inl ⟨rfl,hk⟩⟩
  · next hk =>
    split at h
    · next hlt =>
      cases h
      exact Or.inl ⟨rfl,rfl,Or.inr ⟨rfl,Nat.not_le.mp hk,hlt⟩⟩
    · next hlt => exact Or.inr ⟨Nat.not_le.mp hk,Nat.not_lt.mp hlt,h⟩

theorem abandon_cases {o : Option PageDir} (h : abandon ph d = .ok (ph', o)) :
    o = none ∧ freevm ph d = .ok ph' := by
  obtain ⟨ph1,h1,h2⟩ := bind_ok.mp h
  cases h2
  exact ⟨rfl,h1⟩

theorem copyLoop_cases {o : Option PageDir} (h : copyLoop pgdir (n+1) i ph d = .ok (ph', o)) :
    ∃ p, pgdir.walk i = some p ∧ has p PTE_P = true ∧
      (ph.freelist = [] ∧ abandon ph d = .ok (ph', o) ∨
      ∃ f fs ph1 d1 done, ph.freelist = f::fs ∧
        mappages (Phys.fill { ph with freelist := fs } f (ph.mem (pteFrame p))) d i PGSIZE
          (physAddr f) (pteFlags p) = .ok (ph1, d1, done) ∧
        (done = true ∧ copyLoop pgdir n (i+PGSIZE) ph1 d1 = .ok (ph', o) ∨
        done = false ∧ abandon ph1 d1 = .ok (ph', o))) := by
  rw [copyLoop] at h
  split at h
  · cases h
  · next p hw =>
    split at h
    · next hP =>
      refine ⟨p,hw,hP,?_⟩
      rcases kalloc_cases ph with ⟨hl,hk⟩ | ⟨f,fs,hl,hk⟩ <;> rw [hk] at h
      · exact Or.inl ⟨hl,h⟩
      · obtain ⟨⟨ph1,d1,done⟩,h1,h⟩ := bind_ok.mp h
        refine Or.inr ⟨f,fs,ph1,d1,done,hl,h1,?_⟩
        cases done with
        | true => exact Or.inl ⟨rfl,h⟩
        | false => exact Or.inr ⟨rfl,h⟩
    · cases h

/-- The entry of the parent is protected first and marked when the page is mapped. -/
theorem cowLoop_cases {o : Option PageDir}
    (h : cowLoop (n+1) i ph pgdir d = .ok (ph', pgdir', o)) :
    ∃ p ph1 d1 done, pgdir.walk i = some p ∧ has p PTE_P = true ∧
      mappages ph d i PGSIZE (pteAddr (protect p)) (pteFlags (protect p)) = .ok (ph1, d1, done) ∧
      (done = true ∧ cowLoop n (i+PGSIZE) (ph1.incRef (pteFrame p))
        (pgdir.setPte i (markCow (protect p))) d1 = .ok (ph', pgdir', o) ∨
      done = false ∧ pgdir' = pgdir.setPte i (protect p) ∧ abandon ph1 d1 = .ok (ph', o)) := by
  rw [cowLoop] at h
  split at h
  · cases h
  · next p hw =>
    split at h
    · next hP =>
      obtain ⟨⟨ph1,d1,done⟩,h1,h⟩ := bind_ok.mp h
      refine ⟨p,ph1,d1,done,hw,hP,h1,?_⟩
      cases done with
      | true =>
        dsimp only at h
        rw [if_pos rfl, setPte_setPte] at h
        exact Or.inl ⟨rfl,h⟩
      | false =>
        obtain ⟨⟨ph2,o2⟩,h2,h3⟩ := bind_ok.mp h
        cases h3
        exact Or.inr ⟨rfl,rfl,h2⟩
    · cases h

theorem kmapLoop_cases {k : Kmap} {ks : List Kmap} {o : Option PageDir}
    (h : kmapLoop (k::ks) ph d = .ok (ph', o)) :
    ∃ ph1 d1 done, mappages ph d k.virt ((k.physEnd+2^32-k.physStart)%2^32)
        (BitVec.ofNat 32 k.physStart) k.perm = .ok (ph1, d1, done) ∧
      (done = true ∧ kmapLoop ks ph1 d1 = .ok (ph', o) ∨
      done = false ∧ o = none ∧ freevm ph1 d1 = .ok ph') := by
  obtain ⟨⟨ph1,d1,done⟩,h1,h⟩ := bind_ok.mp h
  refine ⟨ph1,d1,done,h1,?_⟩
  cases done with
  | true => exact Or.inl ⟨rfl,h⟩
  | false =>
    obtain ⟨ph2,h2,h3⟩ := bind_ok.mp h
    cases h3
    exact Or.inr ⟨rfl,rfl,h2⟩

theorem kmapLoop_keeps {P : Phys → PageDir → Prop} {ks : List Kmap}
    (hstep : ∀ k ∈ ks, ∀ {ph ph1 : Phys} {d d1 : PageDir}, mappages ph d k.virt
      ((k.physEnd+2^32-k.physStart)%2^32) (BitVec.ofNat 32 k.physStart) k.perm =
        .ok (ph1, d1, true) → P ph d → P ph1 d1)
    (hP : P ph d) (h : kmapLoop ks ph d = .ok (ph', some d')) : P ph' d' := by
  induction ks generalizing ph d with
  | nil =>
    cases h
    exact hP
  | cons k ks ih =>
    obtain ⟨ph1,d1,done,h1,⟨rfl,h⟩ | ⟨-,ho,-⟩⟩ := kmapLoop_cases h
    · exact ih (fun k hk => hstep k (List.mem_cons_of_mem _ hk))
        (hstep k List.mem_cons_self h1 hP) h
    · cases ho

theorem setupkvm_cases {o : Option PageDir} (h : setupkvm ph = .ok (ph', o)) :
    (ph.freelist = [] ∧ ph' = ph ∧ o = none) ∨
    ∃ f fs, ph.freelist = f::fs ∧
      kmapLoop kmap { ph with freelist := fs } ⟨f,fun _ => none⟩ = .ok (ph', o) := by
  rw [setupkvm] at h
  rcases kalloc_cases ph with ⟨hl,hk⟩ | ⟨f,fs,hl,hk⟩ <;> rw [hk] at h
  · cases h
    exact Or.inl ⟨hl,rfl,rfl⟩
  · dsimp only at h
    rw [if_neg (by decide)] at h
    exact Or.inr ⟨f,fs,hl,h⟩

end

/-! ## Freeing

The functions that free pages have one panic, that of `kfree`.
-/

section
variable {bad : Halt → Prop} (hk : ¬ bad (.panic "kfree"))
include hk

end

section
variable {bad : Halt → Prop}

end

end Xv6.MapSpec
