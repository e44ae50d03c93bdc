import Xv6.Mem.GrowSpec

/-!
# Copying an address space

`copyuvmcow` write-protects the parent's pages and shares them, counted;
`copyuvm` gives the child private pages that it never counts, and on a failed
`mappages` it drops one page altogether. Both keep the ledger, the second one
at the price of ghosts.
-/

set_option autoImplicit false

namespace Xv6.CopySpec
open Xv6.Mmu Xv6.Kalloc Xv6.Paging Xv6.Ledger Xv6.Uvm Xv6.Halting Xv6.MapSpec Xv6.FreeSpec
open Xv6.GrowSpec

variable {g : Ghost} {rest : List PageDir} {own : List ℕ}

theorem abandon_books {ph ph' : Phys} {d : PageDir} {r : Option PageDir}
    (hlen : rest.length ≤ 126) (hb : Books g ph (d::rest) own)
    (h : abandon ph d = .ok (ph', r)) :
    r = none ∧ Books g ph' rest own ∧ ∀ x, 0 < maps rest x → ph'.mem x = ph.mem x := by
  obtain ⟨rfl,h1⟩ := abandon_cases h
  obtain ⟨ph2,hf,hb2,hmem⟩ := freevm_books hlen hb
  rw [h1] at hf
  cases hf
  exact ⟨rfl,hb2,hmem⟩

/-- The frames of the parent below `i` are all the child has so far. -/
def Inside (d pgdir : PageDir) (i : ℕ) : Prop :=
  ∀ v < UPAGES, ∀ f, MapsTo d v f → v*PGSIZE < i ∧ MapsTo pgdir v f

/-- The parent's pages from `i` on that the loop visits are counted. -/
def CountedFrom (g : Ghost) (pgdir : PageDir) (i n : ℕ) : Prop :=
  ∀ v < UPAGES, i ≤ v*PGSIZE → v*PGSIZE < i+n*PGSIZE →
    has (pgdir.leaf (v*PGSIZE)) PTE_P = true → g.u (pteFrame (pgdir.leaf (v*PGSIZE))) = 0

theorem mapsTo_relabel {d : PageDir} {va v f : ℕ} {p q : Pte} (hva : va < KERNBASE)
    (hw : d.walk va = some p) (hP : has q PTE_P = has p PTE_P) (hf : pteFrame q = pteFrame p)
    (hv : v < UPAGES) : MapsTo (d.setPte va q) v f ↔ MapsTo d v f := by
  rw [MapsTo, MapsTo, setPte_leaf_page d va v p q hva hv hw]
  split
  · next he => rw [he, leaf_page, leaf_of_walk hw, hP, hf]
  · rfl

theorem protect_books {ph : Phys} {d pgdir : PageDir} {i : ℕ} {p q : Pte} (hi : i < KERNBASE)
    (hw : pgdir.walk i = some p) (hP : has q PTE_P = has p PTE_P) (hf : pteFrame q = pteFrame p)
    (hW : has q PTE_W = false) (hu : g.u (pteFrame p) = 0)
    (hb : Books g ph (d::pgdir::rest) own) : Books g ph (d::pgdir.setPte i q::rest) own := by
  have h1 := hb.perm (List.Perm.swap _ _ _) (List.Perm.refl _)
  have h2 := h1.relabel (q := q) hi hw hP hf
    (fun _ h => by rw [hW] at h; cases h) (fun _ _ _ => hu)
  exact h2.perm (List.Perm.swap _ _ _) (List.Perm.refl _)

theorem walk_setPte_self {d : PageDir} {va : ℕ} {p q : Pte} (hva : va < KERNBASE)
    (hw : d.walk va = some p) : (d.setPte va q).walk va = some q := by
  have : va < 2^32 := by unfold KERNBASE at hva; omega
  rw [setPte_walk d va va _ this this, if_pos rfl, hw]
  rfl

theorem cowShare_books {ph ph' : Phys} {d d' pgdir : PageDir} {i : ℕ} {p : Pte}
    (hlen : rest.length ≤ 124) (ha : i%PGSIZE = 0) (hi : i < KERNBASE)
    (hw : pgdir.walk i = some p) (hP : has p PTE_P = true) (hu : g.u (pteFrame p) = 0)
    (hin : Inside d pgdir i) (hb : Books g ph (d::pgdir::rest) own)
    (h : mappages ph d i PGSIZE (pteAddr (protect p)) (pteFlags (protect p)) =
      .ok (ph', d', true)) :
    Books g (ph'.incRef (pteFrame p)) (d'::pgdir.setPte i (markCow (protect p))::rest) own ∧
      Inside d' (pgdir.setPte i (markCow (protect p))) (i+PGSIZE) := by
  have hv := page_lt hi
  have hpar : MapsTo pgdir (i/PGSIZE) (pteFrame p) := by
    rw [MapsTo, leaf_page, leaf_of_walk hw]
    exact ⟨hP,rfl⟩
  rcases mappages_page_cases ha hi h with ⟨h0,-⟩ | ⟨-,d1,c,hg,hc,hcP,hcl,rfl⟩
  · cases h0
  rw [addr_flags_entry (protect p) (by rw [protect_P, hP])]
  have hb1 := hg.books _ _ _ (protect_books (q := protect p) hi hw (protect_P p)
    (protect_frame p) (protect_W p) hu hb)
  have hin1 : Inside d1 pgdir i := by
    intro v hv f hm
    apply hin v hv f
    have : v*PGSIZE < KERNBASE := by rw [UPAGES_eq] at hv; unfold KERNBASE PGSIZE; omega
    rwa [MapsTo, hg.leaf _ this] at hm
  -- the parent maps the frame once, so the child cannot have it yet
  have hnew : mapCnt d1 (pteFrame p) = 0 := by
    rw [mapCnt_zero]
    intro v hv' hm
    obtain ⟨hlt,hm'⟩ := hin1 v hv' _ hm
    have h2 := mapCnt_two hv' hv (by rintro rfl; unfold PGSIZE at *; omega) hm' hpar
    have h1 := hb.inj pgdir (by simp) (pteFrame p)
    omega
  have hpar1 : MapsTo (pgdir.setPte i (protect p)) (i/PGSIZE) (pteFrame (protect p)) := by
    rw [mapsTo_relabel hi hw (protect_P p) (protect_frame p) hv, protect_frame]
    exact hpar
  have hro : has ((pgdir.setPte i (protect p)).leaf (i/PGSIZE*PGSIZE)) PTE_W = false := by
    rw [leaf_page, leaf_of_walk (walk_setPte_self hi hw), protect_W]
  have hb2 := hb1.share (q := protect p) (by rw [List.length_cons]; omega) hi hc hcP
    (by rw [protect_P, hP]) (protect_W p) (by rw [protect_frame]; exact hu)
    (by rw [protect_frame]; exact hnew) List.mem_cons_self hv hpar1 hro
  rw [protect_frame] at hb2
  have hb3 := protect_books (q := markCow (protect p)) hi (walk_setPte_self hi hw)
    (markCow_P _) (markCow_frame _) (by rw [markCow_W, protect_W])
    (by rw [protect_frame]; exact hu) hb2
  rw [setPte_setPte] at hb3
  refine ⟨hb3,?_⟩
  intro v hv' f hm
  rw [mapsTo_relabel hi hw (by rw [markCow_P, protect_P]) (by rw [markCow_frame, protect_frame])
    hv']
  rw [MapsTo, setPte_leaf_page d1 i v c _ hi hv' hc] at hm
  split at hm
  · next he =>
    subst he
    rw [protect_frame] at hm
    exact ⟨by unfold PGSIZE; omega,by rw [← hm.2]; exact hpar⟩
  · obtain ⟨h1,h2⟩ := hin1 v hv' f hm
    exact ⟨by omega,h2⟩

theorem countedFrom_next {pgdir : PageDir} {i n : ℕ} {p q : Pte} (hi : i < KERNBASE)
    (hw : pgdir.walk i = some p) (hP : has q PTE_P = has p PTE_P) (hf : pteFrame q = pteFrame p)
    (hc : CountedFrom g pgdir i (n+1)) : CountedFrom g (pgdir.setPte i q) (i+PGSIZE) n := by
  intro v hv h1 h2 h3
  have hm := (mapsTo_relabel (f := pteFrame ((pgdir.setPte i q).leaf (v*PGSIZE))) hi hw hP hf
    hv).mp ⟨h3,rfl⟩
  rw [← hm.2]
  exact hc v hv (by omega) (by unfold PGSIZE at *; omega) hm.1

theorem cowLoop_books {n i : ℕ} {ph ph' : Phys} {d pgdir pgdir' : PageDir} {r : Option PageDir}
    (hlen : rest.length ≤ 124) (ha : i%PGSIZE = 0) (hn : i+n*PGSIZE ≤ KERNBASE)
    (hin : Inside d pgdir i) (hc : CountedFrom g pgdir i n)
    (hb : Books g ph (d::pgdir::rest) own)
    (h : cowLoop n i ph pgdir d = .ok (ph', pgdir', r)) :
    Books g ph' (r.toList++pgdir'::rest) own := by
  induction n generalizing i ph d pgdir with
  | zero =>
    cases h
    exact hb
  | succ n ih =>
    have hi : i < KERNBASE := by unfold PGSIZE at hn; omega
    obtain ⟨p,ph1,d1,done,hw,hP,h1,hrest⟩ := cowLoop_cases h
    have hu : g.u (pteFrame p) = 0 := by
      have := hc (i/PGSIZE) (page_lt hi) (by unfold PGSIZE at *; omega)
        (by unfold PGSIZE at *; omega)
      rw [leaf_page, leaf_of_walk hw] at this
      exact this hP
    rcases hrest with ⟨rfl,h2⟩ | ⟨rfl,rfl,h2⟩
    · obtain ⟨hb1,hin1⟩ := cowShare_books hlen ha hi hw hP hu hin hb h1
      exact ih (by unfold PGSIZE at *; omega) (by unfold PGSIZE at *; omega) hin1
        (countedFrom_next hi hw (by rw [markCow_P, protect_P])
          (by rw [markCow_frame, protect_frame]) hc) hb1 h2
    · rcases mappages_page_cases ha hi h1 with ⟨-,rfl,rfl,-⟩ | ⟨h0,-⟩
      · have hb1 := protect_books (q := protect p) hi hw (protect_P p) (protect_frame p)
          (protect_W p) hu hb
        obtain ⟨rfl,hb2,-⟩ := abandon_books (by rw [List.length_cons]; omega) hb1 h2
        exact hb2
      · cases h0

theorem inside_fresh {ph ph' : Phys} {d : PageDir} (hf : Fresh ph ph' d) (pgdir : PageDir) :
    Inside d pgdir 0 := by
  intro v hv f hm
  have : v*PGSIZE < KERNBASE := by rw [UPAGES_eq] at hv; unfold KERNBASE PGSIZE; omega
  rw [MapsTo, hf.leaf _ this] at hm
  exact absurd hm.1 (by decide)

theorem pageCount_le {sz : ℕ} (h : sz ≤ KERNBASE) : 0+pageCount sz*PGSIZE ≤ KERNBASE := by
  unfold pageCount PGSIZE KERNBASE at *
  omega

theorem copyuvmcow_books {sz : ℕ} {ph ph' : Phys} {pgdir pgdir' : PageDir} {r : Option PageDir}
    (hlen : rest.length ≤ 124) (hsz : sz ≤ KERNBASE) (hc : CountedFrom g pgdir 0 (pageCount sz))
    (hb : Books g ph (pgdir::rest) own)
    (h : copyuvmcow ph pgdir sz = .ok (ph', pgdir', r)) :
    Books g ph' (r.toList++pgdir'::rest) own := by
  rw [copyuvmcow, bind_ok] at h
  obtain ⟨⟨ph1,o⟩,h1,h⟩ := h
  cases o with
  | none =>
    cases h
    exact (setupkvm_none (by rw [List.length_cons]; omega) hb h1).1
  | some d =>
    have hf := setupkvm_some h1
    exact cowLoop_books hlen rfl (pageCount_le hsz) (inside_fresh hf pgdir) hc
      (hf.books _ _ _ hb) h

end Xv6.CopySpec
