import Xv6.Mem.View
import Xv6.Mem.Supply

/-!
# The extent of an address space

A directory has extent `sz` when its user pages are those below `sz` and every
other user entry is zero. Each function that builds or changes a user half moves
the extent as its arguments say, and with the extent known none of the copying
and loading functions comes to its panic and `mappages` never finds an entry in
its way.
-/

set_option autoImplicit false

namespace Xv6.Extents
open Xv6.Mmu Xv6.Kalloc Xv6.Paging Xv6.Ledger Xv6.Uvm Xv6.Halting Xv6.MapSpec Xv6.FreeSpec
open Xv6.GrowSpec Xv6.CopySpec Xv6.Supply Xv6.View

structure Extent (d : PageDir) (sz : ℕ) : Prop where
  present : ∀ v < UPAGES, v*PGSIZE < sz → has (d.leaf (v*PGSIZE)) PTE_P = true
  blank : ∀ v < UPAGES, sz ≤ v*PGSIZE → d.leaf (v*PGSIZE) = 0#32

section
variable {d e : PageDir} {sz a va : ℕ} {p q : Pte}

theorem Extent.absent (h : Extent d sz) {v : ℕ} (hv : v < UPAGES) (hsz : sz ≤ v*PGSIZE) :
    has (d.leaf (v*PGSIZE)) PTE_P = false := by
  rw [h.blank v hv hsz]
  rfl

theorem Extent.resize (h : Extent d sz) (ha : ∀ v, v*PGSIZE < a ↔ v*PGSIZE < sz) :
    Extent d a := by
  refine ⟨fun v hv hlt => h.present v hv ((ha v).mp hlt),fun v hv hle => h.blank v hv ?_⟩
  have := ha v
  omega

theorem round_pages (sz v : ℕ) : v*PGSIZE < PGROUNDUP sz ↔ v*PGSIZE < sz := by
  unfold PGROUNDUP PGSIZE
  omega

theorem Extent.relabel (h : Extent d sz) (hva : va < KERNBASE) (hw : d.walk va = some p)
    (hp : has p PTE_P = true) (hq : has q PTE_P = true) : Extent (d.setPte va q) sz := by
  have hold : d.leaf (va/PGSIZE*PGSIZE) = p := by rw [leaf_page, leaf_of_walk hw]
  constructor
  · intro v hv hlt
    rw [setPte_leaf_page d va v p q hva hv hw]
    split
    · exact hq
    · exact h.present v hv hlt
  · intro v hv hle
    rw [setPte_leaf_page d va v p q hva hv hw]
    split
    · next he =>
      have := h.absent hv hle
      rw [he, hold, hp] at this
      cases this
    · exact h.blank v hv hle

theorem Extent.push (h : Extent d a) (ha : a%PGSIZE = 0) (hk : a < KERNBASE)
    (he : ∀ va < KERNBASE, e.leaf va = d.leaf va) (hw : e.walk a = some p)
    (hq : has q PTE_P = true) : Extent (e.setPte a q) (a+PGSIZE) := by
  constructor
  · intro v hv hlt
    rw [setPte_leaf_page e a v p q hk hv hw]
    split
    · exact hq
    · next hne =>
      rw [he _ (page_addr hv)]
      exact h.present v hv (by unfold PGSIZE at *; omega)
  · intro v hv hle
    rw [setPte_leaf_page e a v p q hk hv hw, if_neg (by unfold PGSIZE at *; omega),
      he _ (page_addr hv)]
    exact h.blank v hv (by omega)

theorem Extent.walk (h : Extent d sz) (ha : a < sz) (hk : a < KERNBASE) :
    d.walk a = some (d.leaf a) ∧ has (d.leaf a) PTE_P = true := by
  have hp := h.present (a/PGSIZE) (page_lt hk) (by unfold PGSIZE; omega)
  rw [leaf_page] at hp
  exact ⟨walk_of_present hp,hp⟩

end

theorem fresh_extent {ph ph' : Phys} {d : PageDir} (h : Fresh ph ph' d) : Extent d 0 :=
  ⟨fun _ _ hlt => absurd hlt (Nat.not_lt_zero _),fun _ hv _ => h.leaf _ (page_addr hv)⟩

section
variable {ph ph' : Phys} {d d' c pgdir pgdir' : PageDir} {sz a n : ℕ} {pa perm : Pte}

/-- Mapping at the end of an address space: it fails with nothing changed, or
moves the end by a page and keeps the pages below. -/
theorem mappages_extent {r : Bool} (hx : Extent d a) (ha : a%PGSIZE = 0) (hk : a < KERNBASE)
    (h : mappages ph d a PGSIZE pa perm = .ok (ph', d', r)) :
    (r = false ∧ d' = d) ∨ (r = true ∧ Extent d' (a+PGSIZE) ∧
      ∀ v < UPAGES, v*PGSIZE < a → d'.leaf (v*PGSIZE) = d.leaf (v*PGSIZE)) := by
  rcases mappages_page_cases ha hk h with ⟨hr,-,hd,-⟩ | ⟨hr,e,p,hg,hw,-,-,rfl⟩
  · exact Or.inl ⟨hr,hd⟩
  · refine Or.inr ⟨hr,hx.push ha hk hg.leaf hw (or_P _),fun v hv hlt => ?_⟩
    rw [setPte_leaf_page e a v p _ hk hv hw, if_neg (by unfold PGSIZE at *; omega),
      hg.leaf _ (page_addr hv)]

/-- The entries above the user half are those of `d`. -/
def SameHigh (d d' : PageDir) : Prop := ∀ va, KERNBASE ≤ va → va < 2^32 → d'.leaf va = d.leaf va

theorem setPte_high {va : ℕ} {p q : Pte} (hva : va < KERNBASE) (hw : d.walk va = some p) :
    SameHigh d (d.setPte va q) := by
  intro va' h1 h2
  have hne : va'/PGSIZE ≠ va/PGSIZE := by unfold KERNBASE PGSIZE at *; omega
  rw [setPte_leaf d va va' q p (by unfold KERNBASE at hva; omega) h2 hw, if_neg hne]

theorem deallocuvm_high {oldsz newsz r : ℕ} (ho : oldsz ≤ KERNBASE)
    (h : deallocuvm ph d oldsz newsz = .ok (ph', d', r)) : SameHigh d d' := by
  apply deallocuvm_keeps (P := fun _ e => SameHigh d e) _ (fun _ _ _ => rfl) h
  intro a p ph ph1 e hlt hw _ _ he va h1 h2
  rw [setPte_high (by omega) hw va h1 h2, he va h1 h2]

theorem mappages_high {r : Bool} (ha : a%PGSIZE = 0) (hk : a < KERNBASE)
    (h : mappages ph d a PGSIZE pa perm = .ok (ph', d', r)) : SameHigh d d' := by
  rw [mappages_page ph d a pa perm ha hk] at h
  rcases mapLoop_ok h with ⟨-,hw⟩ | ⟨ph1,d1,p,hw,-,h⟩
  · obtain ⟨-,rfl,-⟩ := walkpgdir_none hw
    exact fun _ _ _ => rfl
  · cases h
    intro va h1 h2
    rw [setPte_high hk (walkpgdir_some hw).2.1 va h1 h2, walkpgdir_leaf hw]

theorem allocLoop_high {oldsz newsz r : ℕ} (hn : newsz ≤ KERNBASE) (ha : a%PGSIZE = 0)
    (h : allocLoop oldsz newsz n a ph d = .ok (ph', d', r)) : SameHigh d d' := by
  induction n generalizing a ph d with
  | zero =>
    cases h
    exact fun _ _ _ => rfl
  | succ n ih =>
    rcases allocLoop_cases h with ⟨-,rfl,rfl,-⟩ | ⟨-,-,s,h1⟩ |
      ⟨f,fs,ph1,d1,done,hlt,-,h1,⟨-,h2⟩ | ⟨-,-,ph2,s,h2,-⟩⟩
    · exact fun _ _ _ => rfl
    · exact deallocuvm_high hn h1
    · intro va hva hle
      rw [ih (by unfold PGSIZE at *; omega) h2 va hva hle, mappages_high ha (by omega) h1 va hva hle]
    · intro va hva hle
      rw [deallocuvm_high hn h2 va hva hle, mappages_high ha (by omega) h1 va hva hle]

theorem undo_leaf {oldsz newsz r : ℕ} (hx : Extent d a) (hn : newsz ≤ KERNBASE) (ha : a ≤ newsz)
    (h : deallocuvm ph d newsz oldsz = .ok (ph', d', r)) {v : ℕ} (hv : v < UPAGES) :
    d'.leaf (v*PGSIZE) = if oldsz ≤ v*PGSIZE then 0#32 else d.leaf (v*PGSIZE) := by
  rw [deallocuvm_leaf hn h v hv]
  split
  · next hin =>
    rw [if_pos hin.1]
    by_cases hva : v*PGSIZE < a
    · rw [cleared, if_pos (hx.present v hv hva)]
    · rw [hx.blank v hv (by omega)]
      rfl
  · next hin =>
    split
    · exact hx.blank v hv (by omega)
    · rfl

theorem allocLoop_extent {oldsz newsz r : ℕ} (hn : newsz ≤ KERNBASE) (ha : a%PGSIZE = 0)
    (ho : oldsz ≤ a) (hfuel : newsz ≤ a+n*PGSIZE) (hx : Extent d a)
    (h : allocLoop oldsz newsz n a ph d = .ok (ph', d', r)) :
    (r = newsz ∧ Extent d' (max a newsz)) ∨
    (r = 0 ∧ ∀ v < UPAGES,
      d'.leaf (v*PGSIZE) = if oldsz ≤ v*PGSIZE then 0#32 else d.leaf (v*PGSIZE)) := by
  induction n generalizing a ph d with
  | zero =>
    cases h
    exact Or.inl ⟨rfl,by rwa [max_eq_left (by omega)]⟩
  | succ n ih =>
    rcases allocLoop_cases h with ⟨hle,rfl,rfl,hr⟩ | ⟨hlt,hr,s,h1⟩ |
      ⟨f,fs,ph1,d1,done,hlt,-,h1,h2⟩
    · exact Or.inl ⟨hr,by rwa [max_eq_left hle]⟩
    · exact Or.inr ⟨hr,fun v hv => undo_leaf hx hn (by omega) h1 hv⟩
    · rcases mappages_extent hx ha (by omega) h1 with ⟨rfl,rfl⟩ | ⟨rfl,hx1,hlow⟩
      · rcases h2 with ⟨h0,-⟩ | ⟨-,hr,ph2,s,h2,-⟩
        · cases h0
        · exact Or.inr ⟨hr,fun v hv => undo_leaf hx hn (by omega) h2 hv⟩
      · rcases h2 with ⟨-,h2⟩ | ⟨h0,-⟩
        · rcases ih (by unfold PGSIZE at *; omega) (by omega) (by unfold PGSIZE at *; omega) hx1 h2
            with ⟨hr,hx2⟩ | ⟨hr,hsame⟩
          · exact Or.inl ⟨hr,hx2.resize (fun v => by unfold PGSIZE at *; omega)⟩
          · refine Or.inr ⟨hr,fun v hv => ?_⟩
            rw [hsame v hv]
            split
            · rfl
            · exact hlow v hv (by omega)
        · cases h0

/-- Growing an address space: it succeeds and the size is the larger one, or it
returns zero and no entry has changed. -/
theorem allocuvm_extent {oldsz newsz r : ℕ} (hx : Extent d oldsz)
    (h : allocuvm ph d oldsz newsz = .ok (ph', d', r)) :
    (newsz < KERNBASE ∧ r = max oldsz newsz ∧ Extent d' r) ∨
    (r = 0 ∧ ∀ va < 2^32, d'.leaf va = d.leaf va) := by
  rcases allocuvm_cases h with ⟨rfl,rfl,⟨hr,-⟩ | ⟨rfl,hk,hlt⟩⟩ | ⟨hk,hle,h⟩
  · exact Or.inr ⟨hr,fun _ _ => rfl⟩
  · exact Or.inl ⟨hk,by omega,hx⟩
  · have hround : Extent d (PGROUNDUP oldsz) := hx.resize (round_pages oldsz)
    rcases allocLoop_extent hk.le (by unfold PGROUNDUP PGSIZE; omega)
      (by unfold PGROUNDUP PGSIZE; omega) (by unfold PGROUNDUP PGSIZE; omega) hround h
      with ⟨hr,hx'⟩ | ⟨hr,hsame⟩
    · refine Or.inl ⟨hk,by omega,hx'.resize (fun v => ?_)⟩
      have := round_pages oldsz v
      omega
    · refine Or.inr ⟨hr,fun va hva => ?_⟩
      by_cases hk : va < KERNBASE
      · rw [← leaf_page d' va, ← leaf_page d va, hsame _ (page_lt hk)]
        split
        · next hle => rw [hx.blank _ (page_lt hk) hle]
        · rfl
      · exact allocLoop_high (by omega) (by unfold PGROUNDUP PGSIZE; omega) h va (by omega) hva

end

end Xv6.Extents
