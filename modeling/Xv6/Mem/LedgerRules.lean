import Xv6.Mem.Ledger
import Xv6.Mem.Uvm

/-!
# What the memory functions do to the ledger

One rule for each kind of store the functions of `vm.c` make into a user entry:
relabelling a mapped page, mapping a fresh page with or without its counter,
unmapping a page, and sharing a page with a second directory. Stores above
`KERNBASE` and new page tables leave the user mappings alone.
-/

set_option autoImplicit false

namespace Xv6.Ledger
open Xv6.Mmu Xv6.Kalloc Xv6.Paging Xv6.Uvm

variable {g : Ghost} {ph : Phys} {d : PageDir} {rest : List PageDir} {own : List ℕ}
  {f va : ℕ} {p q : Pte}

theorem hit_other {p : Pte} {x : ℕ} (h : pteFrame p ≠ x) : hit p x = 0 := by
  simp [hit, h]

theorem setPte_maps (rest : List PageDir) (hva : va < KERNBASE) (hw : d.walk va = some p)
    (q : Pte) (x : ℕ) :
    maps (d.setPte va q::rest) x+hit p x = maps (d::rest) x+hit q x := by
  have := setPte_mapCnt d va p q hva hw x
  rw [maps_cons, maps_cons]
  omega

theorem setPte_kept (ph : Phys) (d : PageDir) (rest : List PageDir) (own : List ℕ) (va : ℕ)
    (q : Pte) (x : ℕ) : kept ph (d.setPte va q::rest) own x = kept ph (d::rest) own x := by
  rw [kept, kept, tabs_cons, tabs_cons, setPte_frames]

theorem mapped_of_walk (hva : va < KERNBASE) (hw : d.walk va = some p)
    (hp : has p PTE_P = true) : 0 < mapCnt d (pteFrame p) := by
  apply mapCnt_pos (page_lt hva)
  rw [MapsTo, leaf_page, leaf_of_walk hw]
  exact ⟨hp,rfl⟩

/-- Changing the flags of a mapped page. Gaining `PTE_W` needs a page that is
mapped once, losing it a counted page. -/
theorem Books.relabel (hb : Books g ph (d::rest) own) (hva : va < KERNBASE)
    (hw : d.walk va = some p) (hP : has q PTE_P = has p PTE_P) (hf : pteFrame q = pteFrame p)
    (hW : has q PTE_P = true → has q PTE_W = true → maps (d::rest) (pteFrame p) = 1)
    (hro : has q PTE_P = true → has q PTE_W = false → g.watch (has q PTE_U) →
      g.u (pteFrame p) = 0) :
    Books g ph (d.setPte va q::rest) own := by
  have hh := hit_of_frame hP hf
  have hm : ∀ x, maps (d.setPte va q::rest) x = maps (d::rest) x := by
    intro x
    have := setPte_maps rest hva hw q x
    have := hh x
    omega
  apply hb.rewrite hva hw
  · intro x; rw [hh]
  · intro x
    right
    rw [held, held, hm, setPte_kept]
    exact ⟨id,rfl⟩
  · intro x; rw [hm, setPte_kept]; exact hb.single x
  · intro x; left; rw [hh]
  · intro x; left; rw [hh]
  · rw [hm, hf]; exact hW
  · intro x _ h; exact h
  · rw [hf]; exact hro
  · rfl

/-- Mapping an owned frame, where the function and the ghosts together account
for the one new mapping. -/
theorem Books.mapOwned {g' : Ghost} {ph' : Phys} (hb : Books g ph (d::rest) (f::own))
    (hva : va < KERNBASE) (hw : d.walk va = some p) (hp : has p PTE_P = false)
    (hq : has q PTE_P = true) (hf : pteFrame q = f) (hfree : ph'.freelist = ph.freelist)
    (hcount : ∀ x, ph'.pgRefcount x+g'.u x = ph.pgRefcount x+g.u x+hit q x)
    (hu : ∀ x, x ≠ f → g'.u x = g.u x) (huf : g'.u f = 0 ∨ g'.u f = 1 ∧ g'.lost f)
    (hlost : ∀ x, g.lost x → g'.lost x) (hwatch : g'.watch = g.watch)
    (hro : has q PTE_W = false → g.watch (has q PTE_U) → g'.u f = 0) :
    Books g' ph' (d.setPte va q::rest) own := by
  obtain ⟨-,hk1,hm0,hu0,-⟩ := hb.idle (f := f) (by simp [kept])
  have hm : ∀ x, maps (d.setPte va q::rest) x = maps (d::rest) x+hit q x := by
    intro x
    have := setPte_maps rest hva hw q x
    have := hit_absent hp x
    omega
  have hone : hit q f = 1 := by rw [← hf]; exact hit_self q hq
  have hfresh : ∀ x, hit q x = 0 ∧ x ≠ f ∨ x = f := by
    intro x
    by_cases hx : x = f
    · exact Or.inr hx
    · exact Or.inl ⟨hit_other (by rw [hf]; exact Ne.symm hx),hx⟩
  have hkept : ∀ x, kept ph' (d.setPte va q::rest) own x+(if f = x then 1 else 0) =
      kept ph (d::rest) (f::own) x := by
    intro x
    rw [setPte_kept]
    simp only [kept, hfree, List.count_cons, beq_iff_eq]
    omega
  apply hb.rewrite hva hw
  · intro x
    rw [hit_absent hp x]
    have := hcount x
    omega
  · intro x
    right
    refine ⟨hlost x,?_⟩
    have hk := hkept x
    rw [held, held, hm]
    rcases hfresh x with ⟨h,hx⟩ | rfl
    · rw [if_neg (Ne.symm hx)] at hk
      rw [h, Nat.add_zero]
      omega
    · rw [if_pos rfl] at hk
      rw [hone, hm0]
      simp only [lt_self_iff_false, if_false, zero_add, zero_lt_one, if_true]
      omega
  · intro x
    have hk := hkept x
    rcases hfresh x with ⟨h,hx⟩ | rfl
    · rw [hu x hx, hm, h]
      rcases hb.single x with h1 | ⟨h1,h2,h3,h4⟩
      · exact Or.inl h1
      · exact Or.inr ⟨h1,by omega,hlost x h3,by omega⟩
    · rw [if_pos rfl] at hk
      rcases huf with h1 | ⟨h1,h2⟩
      · exact Or.inl h1
      · exact Or.inr ⟨h1,by rw [hm]; omega,h2,by omega⟩
  · intro x
    rcases hfresh x with ⟨h,-⟩ | rfl
    · left; omega
    · right
      rw [maps_cons] at hm0
      omega
  · intro x
    rcases hfresh x with ⟨h,-⟩ | rfl
    · left; omega
    · right
      intro e he v hv hmt
      have := mapCnt_pos hv hmt
      have := mapCnt_le_maps he x
      omega
  · intro _ _
    rw [hf, hm, hone, hm0]
  · intro x hx h
    by_cases hxf : x = f
    · subst hxf; omega
    · rw [hu x hxf]; exact h
  · intro _ hW hwt
    rw [hf]
    exact hro hW hwt
  · exact hwatch

/-- Mapping an owned frame and counting it, as `allocuvm`, `inituvm` and the
copying branch of `pagefault` do. -/
theorem Books.mapCounted (hb : Books g ph (d::rest) (f::own)) (hva : va < KERNBASE)
    (hw : d.walk va = some p) (hp : has p PTE_P = false) (hq : has q PTE_P = true)
    (hf : pteFrame q = f) : Books g (ph.incRef f) (d.setPte va q::rest) own := by
  obtain ⟨-,-,-,hu0,hr0⟩ := hb.idle (f := f) (by simp [kept])
  refine hb.mapOwned hva hw hp hq hf (incRef_freelist ph f) ?_ (fun _ _ => rfl) (Or.inl hu0)
    (fun _ h => h) rfl (fun _ _ => hu0)
  intro x
  by_cases hx : x = f
  · subst hx
    have : hit q x = 1 := by rw [← hf]; exact hit_self q hq
    rw [incRef_self, hr0, hu0, this]
    rfl
  · have : hit q x = 0 := hit_other (by rw [hf]; exact Ne.symm hx)
    rw [incRef_other ph hx, this, Nat.cast_zero, Int.add_zero]

/-- The ghosts after a page was mapped without touching its counter. -/
def Ghost.skip (g : Ghost) (f : ℕ) : Ghost :=
  { g with u := Function.update g.u f 1, lost := fun x => g.lost x ∨ x = f }

theorem Books.decRef_eq (hb : Books g ph (d::rest) own) (hlen : rest.length ≤ 126)
    (hm : 0 < maps (d::rest) f) :
    (ph.decRef f).pgRefcount f = ph.pgRefcount f-1 := by
  have h1 := hb.counted f
  have h2 := maps_le_length f (fun e he => hb.inj e he f)
  rw [List.length_cons] at h2
  have h3 : g.u f ≤ 1 := by rcases hb.single f with h | h <;> omega
  rw [decRef_self]
  apply toChar_of_small <;> omega

theorem Books.unmap (hb : Books g ph (d::rest) own) (hlen : rest.length ≤ 126)
    (hva : va < KERNBASE) (hw : d.walk va = some p) (hp : has p PTE_P = true) {ph' : Phys}
    (h : dropRef ph (pteFrame p) = .ok ph') :
    Books g ph' (d.setPte va 0#32::rest) own := by
  obtain ⟨f,hf⟩ : ∃ f, pteFrame p = f := ⟨_,rfl⟩
  rw [hf, dropRef] at h
  have hone : hit p f = 1 := by rw [← hf]; exact hit_self p hp
  have hpos : 0 < maps (d::rest) f := by
    have := mapped_of_walk hva hw hp
    rw [hf] at this
    rw [maps_cons]
    omega
  have hdec := hb.decRef_eq hlen hpos
  have hkf := (hb.mapped hpos).2
  have hcf := hb.counted f
  have hm : ∀ x, maps (d.setPte va 0#32::rest) x+hit p x = maps (d::rest) x := by
    intro x
    have := setPte_maps rest hva hw 0#32 x
    rw [hit_absent zero_P] at this
    omega
  have hother : ∀ x, x ≠ f → hit p x = 0 := fun x hx => hit_other (by rw [hf]; exact Ne.symm hx)
  -- the counter moves by one at `f`; the page goes to the free list exactly at zero
  have hph : (∀ x, ph'.pgRefcount x = (ph.decRef f).pgRefcount x) ∧
      ∀ x, ph'.freelist.count x = ph.freelist.count x+
        if (ph.pgRefcount f = 1 ∧ x = f) then 1 else 0 := by
    split at h
    · next h0 =>
      rw [Kalloc.kfree] at h
      split at h
      · cases h
        refine ⟨fun _ => rfl,fun x => ?_⟩
        have h1 : ph.pgRefcount f = 1 := by omega
        simp only [decRef_freelist, List.count_cons, beq_iff_eq, h1, true_and, @eq_comm ℕ f x]
      · cases h
    · next h0 =>
      cases h
      refine ⟨fun _ => rfl,fun x => ?_⟩
      have h1 : ph.pgRefcount f ≠ 1 := by omega
      simp only [h1, false_and, if_false, decRef_freelist, Nat.add_zero]
  have hcount : ∀ x, ph'.pgRefcount x+hit p x = ph.pgRefcount x := by
    intro x
    rw [hph.1]
    by_cases hx : x = f
    · subst hx; rw [hdec, hone]; omega
    · rw [hother x hx]
      rw [decRef_other ph hx, Nat.cast_zero, Int.add_zero]
  have hkept : ∀ x, kept ph' (d.setPte va 0#32::rest) own x = kept ph (d::rest) own x+
      if (ph.pgRefcount f = 1 ∧ x = f) then 1 else 0 := by
    intro x
    rw [setPte_kept, kept, kept, hph.2]
    omega
  apply hb.rewrite hva hw
  · intro x
    rw [hit_absent zero_P]
    have := hcount x
    omega
  · intro x
    have h1 := hm x
    have h2 := hkept x
    rw [held, held, h2]
    by_cases hx : x = f
    · subst hx
      rcases hb.single x with hu | ⟨hu,hu1,hu2,-⟩
      · right
        refine ⟨id,?_⟩
        by_cases hr : ph.pgRefcount x = 1
        · have : maps (d.setPte va 0#32::rest) x = 0 := by omega
          simp only [hr, hpos, this, lt_self_iff_false, if_false, if_true, and_self]
        · have : 0 < maps (d.setPte va 0#32::rest) x := by omega
          simp only [hr, hpos, this, if_true, false_and, if_false, Nat.add_zero]
      · left
        refine ⟨hu2,?_⟩
        have hr : ph.pgRefcount x ≠ 1 := by omega
        simp only [hr, false_and, if_false, Nat.add_zero, if_pos hpos]
        split <;> omega
    · right
      refine ⟨id,?_⟩
      have := hother x hx
      rw [show maps (d.setPte va 0#32::rest) x = maps (d::rest) x by omega]
      simp [hx]
  · intro x
    rcases hb.single x with hu | ⟨hu,hu1,hu2,hu3⟩
    · exact Or.inl hu
    · right
      have h1 := hm x
      refine ⟨hu,by omega,hu2,?_⟩
      rw [hkept, hu3]
      by_cases hx : x = f
      · subst hx
        have hr : ph.pgRefcount x ≠ 1 := by omega
        simp [hr]
      · simp [hx]
  · intro x; left; rw [hit_absent zero_P]; omega
  · intro x; left; rw [hit_absent zero_P]; omega
  · intro h0; simp at h0
  · intro x _ hx; exact hx
  · intro h0; simp at h0
  · rfl

/-- Mapping in `d` a counted page of another directory that is write-protected
there, as `copyuvmcow` does. -/
theorem Books.share (hb : Books g ph (d::rest) own) (hlen : rest.length ≤ 125)
    (hva : va < KERNBASE) (hw : d.walk va = some p) (hp : has p PTE_P = false)
    (hq : has q PTE_P = true) (hqW : has q PTE_W = false) (hu : g.u (pteFrame q) = 0)
    (hd : mapCnt d (pteFrame q) = 0) {e : PageDir} {v : ℕ} (he : e ∈ rest) (hv : v < UPAGES)
    (hmt : MapsTo e v (pteFrame q)) (hr : has (e.leaf (v*PGSIZE)) PTE_W = false) :
    Books g (ph.incRef (pteFrame q)) (d.setPte va q::rest) own := by
  obtain ⟨f,hf⟩ : ∃ f, pteFrame q = f := ⟨_,rfl⟩
  rw [hf] at hu hd hmt ⊢
  have hone : hit q f = 1 := by rw [← hf]; exact hit_self q hq
  have hpos : 0 < maps (d::rest) f := by
    have := mapCnt_pos hv hmt
    have := mapCnt_le_maps he f
    rw [maps_cons]
    omega
  have hm : ∀ x, maps (d.setPte va q::rest) x = maps (d::rest) x+hit q x := by
    intro x
    have := setPte_maps rest hva hw q x
    have := hit_absent hp x
    omega
  have hother : ∀ x, x ≠ f → hit q x = 0 := fun x hx => hit_other (by rw [hf]; exact Ne.symm hx)
  have hinc : (ph.incRef f).pgRefcount f = ph.pgRefcount f+1 := by
    have h1 := hb.counted f
    have h2 := maps_le_length f (fun e he => hb.inj e he f)
    rw [List.length_cons] at h2
    rw [incRef_self]
    apply toChar_of_small <;> omega
  apply hb.rewrite hva hw
  · intro x
    rw [hit_absent hp]
    by_cases hx : x = f
    · subst hx; rw [hinc, hone]; omega
    · rw [hother x hx]
      rw [incRef_other ph hx]
  · intro x
    right
    refine ⟨id,?_⟩
    rw [held, held, hm, setPte_kept]
    by_cases hx : x = f
    · subst hx
      rw [if_pos hpos, if_pos (by omega)]
      rfl
    · rw [hother x hx, Nat.add_zero]
      rfl
  · intro x
    rw [hm, setPte_kept]
    by_cases hx : x = f
    · subst hx; exact Or.inl hu
    · rw [hother x hx, Nat.add_zero]; exact hb.single x
  · intro x
    by_cases hx : x = f
    · subst hx; exact Or.inr hd
    · left; rw [hother x hx]; omega
  · intro x
    by_cases hx : x = f
    · subst hx
      right
      intro e' he' w hwlt hmt'
      exact hb.no_writer (by simp [he]) hv hmt hr he' hwlt hmt'
    · left; rw [hother x hx]; omega
  · intro _ hW; rw [hqW] at hW; cases hW
  · intro x _ h; exact h
  · intro _ _ _; rw [hf]; exact hu
  · rfl

theorem Books.kernelPte (hb : Books g ph (d::rest) own) (hva : KERNBASE ≤ va)
    (hlt : va < 2^32) (hU : has q PTE_U = false) : Books g ph (d.setPte va q::rest) own := by
  have ha : Alike (d.setPte va q) d := by
    constructor
    · intro v hv
      rw [UPAGES_eq] at hv
      have hne : v*PGSIZE/PGSIZE ≠ va/PGSIZE := by
        unfold KERNBASE at hva
        unfold PGSIZE
        omega
      rw [PageDir.leaf, setPte_walk d va _ q hlt (by unfold PGSIZE; omega), if_neg hne,
        PageDir.leaf]
    · intro h w h1 h2
      rw [PageDir.leaf, setPte_walk d va w q hlt h2]
      split
      · cases d.walk w with
        | none => exact (rfl : has 0#32 PTE_U = false)
        | some c => exact hU
      · exact h w h1 h2
  exact hb.rehead rfl ha (setPte_kept ph d rest own va q)

theorem newDir_leaf (f va : ℕ) : (PageDir.mk f (fun _ => none)).leaf va = 0#32 := rfl

theorem blank_newDir (f : ℕ) : Blank ⟨f, fun _ => none⟩ :=
  ⟨fun v _ => by rw [newDir_leaf]; rfl,fun v _ _ => by rw [newDir_leaf]; rfl⟩

theorem Books.newDir {ds : List PageDir} (hb : Books g ph ds (f::own)) :
    Books g ph (⟨f, fun _ => none⟩::ds) own := by
  have hf : (PageDir.mk f (fun _ => none)).frames = [f] := by
    simp [PageDir.frames]
  refine hb.transport rfl (fun x => ?_) (fun x => ?_) (fun e he => ?_)
  · rw [maps_cons, blank_mapCnt (blank_newDir f), Nat.zero_add]
  · simp only [kept, tabs_cons, hf, List.count_cons, List.count_nil]
    omega
  · rcases List.mem_cons.mp he with rfl | he
    · exact Or.inr (blank_newDir f)
    · exact Or.inl ⟨e,he,alike_refl e⟩

/-- A directory without user mappings leaves the ledger and its frames become
owned. -/
theorem Books.dropDir (hb : Books g ph (d::rest) own)
    (hc : ∀ v < UPAGES, has (d.leaf (v*PGSIZE)) PTE_P = false) :
    Books g ph rest (d.frames++own) := by
  have hbl : Blank d := ⟨hc,hb.hidden d (by simp)⟩
  refine hb.transport rfl (fun x => ?_) (fun x => ?_)
    (fun e he => Or.inl ⟨e,by simp [he],alike_refl e⟩)
  · rw [maps_cons, blank_mapCnt hbl, Nat.zero_add]
  · simp only [kept, tabs_cons, List.count_append]
    omega

theorem Books.kfree_mem {ds : List PageDir} {x : ℕ} (hb : Books g ph ds (f::own))
    (hx : 0 < maps ds x) : (ph.fill f (fun _ => 1)).mem x = ph.mem x := by
  have hz := (hb.idle (f := f) (by simp [kept])).2.2.1
  have hne : x ≠ f := by
    rintro rfl
    omega
  exact Function.update_of_ne hne _ _

end Xv6.Ledger
