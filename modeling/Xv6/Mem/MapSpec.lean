import Xv6.Mem.LedgerRules
import Xv6.Mem.Uvm

/-!
# Mapping pages

What `walkpgdir`, `mappages` and `setupkvm` can do, said once: a walk finds an
entry, adds an empty page table or runs out of memory, and mapping changes only
the entries it is given. The relation `Grown` collects what every caller uses.
-/

set_option autoImplicit false

namespace Xv6.MapSpec
open Xv6.Mmu Xv6.Kalloc Xv6.Paging Xv6.Ledger

/-- Only page tables and kernel entries were added to `d`. -/
structure Grown (ph : Phys) (d : PageDir) (ph' : Phys) (d' : PageDir) : Prop where
  books : ∀ g rest own, Books g ph (d::rest) own → Books g ph' (d'::rest) own
  leaf : ∀ va < KERNBASE, d'.leaf va = d.leaf va
  ref : ph'.pgRefcount = ph.pgRefcount
  mem : ph'.mem = ph.mem

theorem Grown.refl (ph : Phys) (d : PageDir) : Grown ph d ph d :=
  ⟨fun _ _ _ h => h,fun _ _ => rfl,rfl,rfl⟩

theorem Grown.trans {ph ph' ph'' : Phys} {d d' d'' : PageDir} (h : Grown ph d ph' d')
    (h' : Grown ph' d' ph'' d'') : Grown ph d ph'' d'' :=
  ⟨fun g rest own hb => h'.books g rest own (h.books g rest own hb),
    fun va hva => (h'.leaf va hva).trans (h.leaf va hva),h'.ref.trans h.ref,h'.mem.trans h.mem⟩

theorem kalloc_cases (ph : Phys) :
    ph.freelist = [] ∧ kalloc ph = (ph, none) ∨
    ∃ f fs, ph.freelist = f::fs ∧ kalloc ph = ({ ph with freelist := fs }, some f) := by
  cases h : ph.freelist with
  | nil => exact Or.inl ⟨rfl,by simp [kalloc, h]⟩
  | cons f fs => exact Or.inr ⟨f,fs,rfl,by simp [kalloc, h]⟩

theorem grown_addTable (ph : Phys) (d : PageDir) (va f : ℕ) (fs : List ℕ)
    (hl : ph.freelist = f::fs) (hw : d.walk va = none) :
    Grown ph d { ph with freelist := fs } (d.addTable (PDX va) f) where
  books _ _ _ hb := (hb.kalloc hl).addTable hw
  leaf va' _ := addTable_leaf d va va' f hw
  ref := rfl
  mem := rfl

theorem walkpgdir_cases (ph : Phys) (d : PageDir) (va : ℕ) :
    (∃ p, d.walk va = some p ∧ walkpgdir ph d va true = (ph, d, some p)) ∨
    (d.walk va = none ∧ ph.freelist = [] ∧ walkpgdir ph d va true = (ph, d, none)) ∨
    ∃ f fs, d.walk va = none ∧ ph.freelist = f::fs ∧ walkpgdir ph d va true =
      ({ ph with freelist := fs }, d.addTable (PDX va) f, some 0#32) := by
  cases hw : d.walk va with
  | some p => exact Or.inl ⟨p,rfl,by simp [walkpgdir, hw]⟩
  | none =>
    rcases kalloc_cases ph with ⟨hl,hk⟩ | ⟨f,fs,hl,hk⟩
    · exact Or.inr (Or.inl ⟨rfl,hl,by simp [walkpgdir, hw, hk]⟩)
    · exact Or.inr (Or.inr ⟨f,fs,rfl,hl,by simp [walkpgdir, hw, hk]⟩)

/-- A walk that returns an entry only grew the directory, and the entry is the
one the flat map has. -/
theorem walkpgdir_some {ph ph' : Phys} {d d' : PageDir} {va : ℕ} {p : Pte}
    (h : walkpgdir ph d va true = (ph', d', some p)) :
    Grown ph d ph' d' ∧ d'.walk va = some p ∧ d.leaf va = p := by
  rcases walkpgdir_cases ph d va with ⟨q,hw,he⟩ | ⟨-,-,he⟩ | ⟨f,fs,hw,hl,he⟩
  · rw [he] at h
    cases h
    exact ⟨Grown.refl ph d,hw,leaf_of_walk hw⟩
  · rw [he] at h
    cases h
  · rw [he] at h
    cases h
    exact ⟨grown_addTable ph d va f fs hl hw,addTable_walk d va f,leaf_of_walk_none hw⟩

theorem walkpgdir_leaf {ph ph' : Phys} {d d' : PageDir} {va : ℕ} {p : Pte}
    (h : walkpgdir ph d va true = (ph', d', some p)) (va' : ℕ) : d'.leaf va' = d.leaf va' := by
  rcases walkpgdir_cases ph d va with ⟨q,-,he⟩ | ⟨-,-,he⟩ | ⟨f,fs,hw,-,he⟩ <;> rw [h] at he <;>
    cases he
  · rfl
  · exact addTable_leaf d va va' f hw

theorem walkpgdir_none {ph ph' : Phys} {d d' : PageDir} {va : ℕ}
    (h : walkpgdir ph d va true = (ph', d', none)) :
    ph' = ph ∧ d' = d ∧ ph.freelist = [] := by
  rcases walkpgdir_cases ph d va with ⟨q,hw,he⟩ | ⟨-,hl,he⟩ | ⟨f,fs,hw,hl,he⟩ <;> rw [he] at h <;>
    cases h
  exact ⟨rfl,rfl,hl⟩

theorem mappages_page (ph : Phys) (d : PageDir) (a : ℕ) (pa perm : Pte)
    (ha : a%PGSIZE = 0) (hlt : a < KERNBASE) :
    mappages ph d a PGSIZE pa perm = mapLoop 1 ph d a pa perm := by
  have h1 : PGROUNDDOWN (a%2^32) = a := by
    rw [PGROUNDDOWN, Nat.mod_eq_of_lt (by unfold KERNBASE at hlt; omega)]
    exact Nat.div_mul_cancel (Nat.dvd_of_mod_eq_zero ha)
  have h2 : PGROUNDDOWN ((a+PGSIZE+2^32-1)%2^32) = a := by
    have : (a+PGSIZE+2^32-1)%2^32 = a+(PGSIZE-1) := by
      unfold KERNBASE PGSIZE at *
      omega
    rw [this, PGROUNDDOWN]
    unfold PGSIZE at *
    omega
  simp only [mappages]
  rw [h1, h2]
  simp [PGSIZE]

/-- Mapping one user page: it fails with nothing changed, or stores exactly one
entry, in a slot that was not present. -/
theorem mappages_page_cases {ph ph' : Phys} {d d' : PageDir} {a : ℕ} {pa perm : Pte} {r : Bool}
    (ha : a%PGSIZE = 0) (hlt : a < KERNBASE)
    (h : mappages ph d a PGSIZE pa perm = .ok (ph', d', r)) :
    (r = false ∧ ph' = ph ∧ d' = d ∧ ph.freelist = []) ∨
    (r = true ∧ ∃ d1 p, Grown ph d ph' d1 ∧ d1.walk a = some p ∧ has p PTE_P = false ∧
      d.leaf a = p ∧ d' = d1.setPte a (pa ||| perm ||| PTE_P)) := by
  rw [mappages_page ph d a pa perm ha hlt, mapLoop] at h
  cases hw : walkpgdir ph d a true with
  | mk ph1 x =>
    obtain ⟨d1,o⟩ := x
    rw [hw] at h
    cases o with
    | none =>
      cases h
      obtain ⟨rfl,rfl,hl⟩ := walkpgdir_none hw
      exact Or.inl ⟨rfl,rfl,rfl,hl⟩
    | some p =>
      obtain ⟨hg,hp,hl⟩ := walkpgdir_some hw
      dsimp only at h
      split at h
      · cases h
      · next hP =>
        cases h
        exact Or.inr ⟨rfl,d1,p,hg,hp,by simpa using hP,hl,rfl⟩

/-- One pass of the loop: no memory for a page table, a page that is present, or one entry
stored. -/
theorem mapLoop_cases {a : ℕ} (n : ℕ) (ph : Phys) (d : PageDir) (pa perm : Pte) (ha : a < 2^32) :
    (ph.freelist = [] ∧ mapLoop (n+1) ph d a pa perm = .ok (ph, d, false)) ∨
    (has (d.leaf a) PTE_P = true ∧ mapLoop (n+1) ph d a pa perm = .error (.panic "remap")) ∨
    (has (d.leaf a) PTE_P = false ∧ ∃ ph1 d1, mapLoop (n+1) ph d a pa perm =
        mapLoop n ph1 d1 ((a+PGSIZE)%2^32) (pa+BitVec.ofNat 32 PGSIZE) perm ∧
      ∀ va < 2^32, d1.leaf va =
        if va/PGSIZE = a/PGSIZE then pa ||| perm ||| PTE_P else d.leaf va) := by
  rw [mapLoop]
  rcases hw : walkpgdir ph d a true with ⟨ph1,d1,_ | p⟩
  · obtain ⟨rfl,rfl,hl⟩ := walkpgdir_none hw
    exact Or.inl ⟨hl,rfl⟩
  · obtain ⟨-,hwalk,hleaf⟩ := walkpgdir_some hw
    dsimp only
    rw [hleaf]
    by_cases hP : has p PTE_P = true
    · exact Or.inr (Or.inl ⟨hP,if_pos hP⟩)
    · refine Or.inr (Or.inr ⟨Bool.eq_false_iff.mpr hP,ph1,_,if_neg hP,?_⟩)
      intro va hva
      rw [setPte_leaf d1 a va _ p ha hva hwalk, walkpgdir_leaf hw]

/-- The flat map with the first `k` pages from `a` on mapped to `pa` and what follows it. -/
def mapped (leaf : ℕ → Pte) (a k : ℕ) (pa perm : Pte) (va : ℕ) : Pte :=
  if a ≤ va ∧ va < a+k*PGSIZE then
    pa+BitVec.ofNat 32 ((va-a)/PGSIZE*PGSIZE) ||| perm ||| PTE_P
  else leaf va

theorem mapped_zero (leaf : ℕ → Pte) (a : ℕ) (pa perm : Pte) (va : ℕ) :
    mapped leaf a 0 pa perm va = leaf va := if_neg (by omega)

theorem mapped_succ {leaf leaf' : ℕ → Pte} {a va : ℕ} {pa perm : Pte} (k : ℕ) (ha : a%PGSIZE = 0)
    (h : leaf' va = if va/PGSIZE = a/PGSIZE then pa ||| perm ||| PTE_P else leaf va) :
    mapped leaf' (a+PGSIZE) k (pa+BitVec.ofNat 32 PGSIZE) perm va =
      mapped leaf a (k+1) pa perm va := by
  unfold mapped
  by_cases hin : a+PGSIZE ≤ va ∧ va < a+PGSIZE+k*PGSIZE
  · have hoff : (va-a)/PGSIZE*PGSIZE = PGSIZE+(va-(a+PGSIZE))/PGSIZE*PGSIZE := by
      unfold PGSIZE at *
      omega
    rw [if_pos hin, if_pos (by unfold PGSIZE at *; omega), hoff, BitVec.ofNat_add, BitVec.add_assoc]
  · rw [if_neg hin, h]
    by_cases hpage : va/PGSIZE = a/PGSIZE
    · have hoff : (va-a)/PGSIZE*PGSIZE = 0 := by
        unfold PGSIZE at *
        omega
      rw [if_pos hpage, if_pos (by unfold PGSIZE at *; omega), hoff, BitVec.add_zero]
    · rw [if_neg hpage, if_neg (by unfold PGSIZE at *; omega)]

/-- The loop maps its pages one after another: all of them, or those before the page table for
which there is no memory. -/
theorem mapLoop_mapped {n a : ℕ} {ph ph' : Phys} {d d' : PageDir} {pa perm : Pte} {r : Bool}
    (ha : a%PGSIZE = 0) (hlt : a+n*PGSIZE ≤ 2^32)
    (h : mapLoop n ph d a pa perm = .ok (ph', d', r)) :
    ∃ k ≤ n, (r = true ↔ k = n) ∧ (r = false → ph'.freelist = []) ∧
      ∀ va < 2^32, d'.leaf va = mapped d.leaf a k pa perm va := by
  induction n generalizing a ph d pa with
  | zero =>
    cases h
    exact ⟨0,le_rfl,by simp,by rintro ⟨⟩,fun va _ => (mapped_zero ..).symm⟩
  | succ n ih =>
    have ha32 : a < 2^32 := by unfold PGSIZE at hlt; omega
    rcases mapLoop_cases n ph d pa perm ha32 with ⟨hl,he⟩ | ⟨-,he⟩ | ⟨-,ph1,d1,he,hset⟩
    · rw [he] at h
      cases h
      exact ⟨0,by omega,by simp,fun _ => hl,fun va _ => (mapped_zero ..).symm⟩
    · rw [he] at h
      cases h
    · rw [he] at h
      -- the address wraps only after the last page, when no pass is left
      cases n with
      | zero =>
        cases h
        refine ⟨1,le_rfl,by simp,by rintro ⟨⟩,?_⟩
        intro va hva
        rw [← mapped_succ 0 ha (hset va hva), mapped_zero]
      | succ m =>
        rw [Nat.mod_eq_of_lt (a := a+PGSIZE) (by unfold PGSIZE at *; omega)] at h
        obtain ⟨k,hk,hr,hf,hleaf⟩ := ih (by unfold PGSIZE at *; omega)
          (by unfold PGSIZE at *; omega) h
        refine ⟨k+1,by omega,by rw [hr]; omega,hf,?_⟩
        intro va hva
        rw [hleaf va hva, mapped_succ k ha (hset va hva)]

theorem mapLoop_returns {n a : ℕ} (ph : Phys) (d : PageDir) (pa perm : Pte)
    (hlt : a+n*PGSIZE ≤ 2^32) (ha : a%PGSIZE = 0)
    (hp : ∀ va, a ≤ va → va < a+n*PGSIZE → has (d.leaf va) PTE_P = false) :
    ∃ ph' d' r, mapLoop n ph d a pa perm = .ok (ph', d', r) := by
  induction n generalizing a ph d pa with
  | zero => exact ⟨ph,d,true,rfl⟩
  | succ n ih =>
    have ha32 : a < 2^32 := by unfold PGSIZE at hlt; omega
    rcases mapLoop_cases n ph d pa perm ha32 with ⟨-,he⟩ | ⟨hP,-⟩ | ⟨-,ph1,d1,he,hset⟩
    · exact ⟨ph,d,false,he⟩
    · rw [hp a le_rfl (by unfold PGSIZE; omega)] at hP
      cases hP
    · rw [he]
      cases n with
      | zero => exact ⟨ph1,d1,true,rfl⟩
      | succ m =>
        rw [Nat.mod_eq_of_lt (a := a+PGSIZE) (by unfold PGSIZE at *; omega)]
        apply ih
        · unfold PGSIZE at *
          omega
        · unfold PGSIZE at *
          omega
        · intro va h1 h2
          rw [hset va (by unfold PGSIZE at *; omega), if_neg (by unfold PGSIZE at *; omega)]
          exact hp va (by omega) (by unfold PGSIZE at *; omega)

theorem mapLoop_free {n a : ℕ} (ph : Phys) (d : PageDir) (pa perm : Pte)
    (hlt : a+n*PGSIZE ≤ 2^32) (ha : a%PGSIZE = 0)
    (hp : ∀ va, a ≤ va → va < a+n*PGSIZE → has (d.leaf va) PTE_P = false) :
    ∃ ph' d' r, mapLoop n ph d a pa perm = .ok (ph', d', r) ∧
      ∀ va < 2^32, (va < a ∨ a+n*PGSIZE ≤ va) → d'.leaf va = d.leaf va := by
  obtain ⟨ph',d',r,h⟩ := mapLoop_returns ph d pa perm hlt ha hp
  obtain ⟨k,hk,-,-,hleaf⟩ := mapLoop_mapped ha hlt h
  refine ⟨ph',d',r,h,?_⟩
  intro va hva hout
  rw [hleaf va hva]
  exact if_neg (by unfold PGSIZE at *; omega)

theorem physAddr_succ (m : ℕ) : physAddr m+BitVec.ofNat 32 PGSIZE = physAddr (m+1) := by
  rw [physAddr, physAddr, Nat.succ_mul, BitVec.ofNat_add]

theorem kernel_mapLoop {n : ℕ} {ph ph' : Phys} {d d' : PageDir} {a m : ℕ} {perm : Pte}
    {r : Bool} (hk : KERNBASE ≤ a) (hlt : a+n*PGSIZE ≤ 2^32) (hU : has perm PTE_U = false)
    (h : mapLoop n ph d a (physAddr m) perm = .ok (ph', d', r)) : Grown ph d ph' d' := by
  induction n generalizing ph d a m with
  | zero =>
    rw [mapLoop] at h
    cases h
    exact Grown.refl _ _
  | succ n ih =>
    rw [mapLoop] at h
    cases hw : walkpgdir ph d a true with
    | mk ph1 x =>
      obtain ⟨d1,o⟩ := x
      rw [hw] at h
      cases o with
      | none =>
        cases h
        obtain ⟨rfl,rfl,-⟩ := walkpgdir_none hw
        exact Grown.refl _ _
      | some p =>
        obtain ⟨hg,hp,-⟩ := walkpgdir_some hw
        dsimp only at h
        split at h
        · cases h
        · have ha : a < 2^32 := by unfold PGSIZE at hlt; omega
          have hs : Grown ph1 d1 ph1 (d1.setPte a (physAddr m ||| perm ||| PTE_P)) := by
            refine ⟨fun _ _ _ hb => hb.kernelPte hk ha (by rw [entry_U, hU]),fun va hva => ?_,rfl,rfl⟩
            have hne : va/PGSIZE ≠ a/PGSIZE := by
              unfold KERNBASE PGSIZE at *
              omega
            rw [PageDir.leaf, setPte_walk d1 a va _ ha (by unfold KERNBASE at hva; omega),
              if_neg hne, PageDir.leaf]
          cases n with
          | zero =>
            rw [mapLoop] at h
            cases h
            exact hg.trans hs
          | succ m =>
            have hmod : (a+PGSIZE)%2^32 = a+PGSIZE := by
              apply Nat.mod_eq_of_lt
              unfold PGSIZE at *
              omega
            rw [hmod, physAddr_succ] at h
            have ht := ih (a := a+PGSIZE) (by omega) (by unfold PGSIZE at *; omega) h
            exact (hg.trans hs).trans ht

end Xv6.MapSpec
