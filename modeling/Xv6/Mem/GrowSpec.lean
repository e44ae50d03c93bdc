import Xv6.Mem.FreeSpec

/-!
# New address spaces and new pages

`setupkvm` hands out a directory with no user entries or gives everything back;
`allocuvm` and `inituvm` map fresh counted pages; a page fault makes the entry
writable, in place for the only user of a page and in a private copy otherwise.
-/

set_option autoImplicit false

namespace Xv6.GrowSpec
open Xv6.Mmu Xv6.Kalloc Xv6.Paging Xv6.Ledger Xv6.Uvm Xv6.Halting Xv6.MapSpec Xv6.FreeSpec

def KernelRange (k : Kmap) : Prop :=
  let a := PGROUNDDOWN (k.virt%2^32)
  let last := PGROUNDDOWN ((k.virt+(k.physEnd+2^32-k.physStart)%2^32+2^32-1)%2^32)
  KERNBASE ≤ a ∧ a+(((last+2^32-a)%2^32)/PGSIZE+1)*PGSIZE ≤ 2^32 ∧ has k.perm PTE_U = false ∧
    k.physStart/PGSIZE*PGSIZE = k.physStart

instance (k : Kmap) : Decidable (KernelRange k) := inferInstanceAs (Decidable (_ ∧ _))

theorem kmap_range : ∀ k ∈ kmap, KernelRange k := by decide

theorem kmap_mappages {k : Kmap} (hk : KernelRange k) {ph ph' : Phys} {d d' : PageDir} {r : Bool}
    (h : mappages ph d k.virt ((k.physEnd+2^32-k.physStart)%2^32)
      (BitVec.ofNat 32 k.physStart) k.perm = .ok (ph', d', r)) : Grown ph d ph' d' := by
  have hpa : BitVec.ofNat 32 k.physStart = physAddr (k.physStart/PGSIZE) := by
    rw [physAddr, hk.2.2.2]
  rw [hpa] at h
  exact kernel_mapLoop hk.1 hk.2.1 hk.2.2.1 h

theorem kmapLoop_some {ks : List Kmap} (hk : ∀ k ∈ ks, KernelRange k) {ph ph' : Phys}
    {d d' : PageDir} (h : kmapLoop ks ph d = .ok (ph', some d')) : Grown ph d ph' d' :=
  kmapLoop_keeps (P := Grown ph d) (fun k hm _ _ _ _ h1 hg => hg.trans (kmap_mappages (hk k hm) h1))
    (Grown.refl _ _) h

theorem kmapLoop_none {ks : List Kmap} (hk : ∀ k ∈ ks, KernelRange k) {ph ph' : Phys}
    {d : PageDir} {g : Ghost} {ds : List PageDir} {own : List ℕ} (hlen : ds.length ≤ 126)
    (hb : Books g ph (d::ds) own) (h : kmapLoop ks ph d = .ok (ph', none)) :
    Books g ph' ds own ∧ ∀ x, 0 < maps ds x → ph'.mem x = ph.mem x := by
  induction ks generalizing ph d with
  | nil => cases h
  | cons k ks ih =>
    obtain ⟨ph1,d1,done,h1,hdone⟩ := kmapLoop_cases h
    have hg := kmap_mappages (hk k List.mem_cons_self) h1
    have hb1 := hg.books _ _ _ hb
    rcases hdone with ⟨-,h⟩ | ⟨-,-,h⟩
    · have hrest := ih (fun k hm => hk k (List.mem_cons_of_mem _ hm)) hb1 h
      rwa [hg.mem] at hrest
    · obtain ⟨ph3,h3,hb3,hmem⟩ := freevm_books hlen hb1
      rw [h] at h3
      cases h3
      exact ⟨hb3,fun x hx => (hmem x hx).trans (congrFun hg.mem x)⟩

/-- A directory that has just been set up. -/
structure Fresh (ph ph' : Phys) (d : PageDir) : Prop where
  books : ∀ g ds own, Books g ph ds own → Books g ph' (d::ds) own
  leaf : ∀ va < KERNBASE, d.leaf va = 0#32
  ref : ph'.pgRefcount = ph.pgRefcount
  mem : ph'.mem = ph.mem

theorem setupkvm_some {ph ph' : Phys} {d : PageDir} (h : setupkvm ph = .ok (ph', some d)) :
    Fresh ph ph' d := by
  rcases setupkvm_cases h with ⟨-,-,ho⟩ | ⟨f,fs,hl,h⟩
  · cases ho
  · have hg := kmapLoop_some kmap_range h
    exact ⟨fun g ds own hb => hg.books g ds own (hb.kalloc hl).newDir,
      fun va hva => (hg.leaf va hva).trans (newDir_leaf f va),hg.ref,hg.mem⟩

theorem setupkvm_none {ph ph' : Phys} {g : Ghost} {ds : List PageDir} {own : List ℕ}
    (hlen : ds.length ≤ 126) (hb : Books g ph ds own) (h : setupkvm ph = .ok (ph', none)) :
    Books g ph' ds own ∧ ∀ x, 0 < maps ds x → ph'.mem x = ph.mem x := by
  rcases setupkvm_cases h with ⟨-,rfl,-⟩ | ⟨f,fs,hl,h⟩
  · exact ⟨hb,fun _ _ => rfl⟩
  · have hr := kmapLoop_none kmap_range hlen (hb.kalloc hl).newDir h
    exact hr

section
variable {g : Ghost} {rest : List PageDir} {own : List ℕ}

theorem userPerm_low : LowBits (PTE_W ||| PTE_U) := lowBits_of_lt _ (by decide)

theorem mapNew_books {ph ph' : Phys} {d d' : PageDir} {a f : ℕ} {perm : Pte}
    (ha : a%PGSIZE = 0) (hk : a < KERNBASE) (hperm : LowBits perm)
    (hb : Books g ph (d::rest) (f::own))
    (h : mappages ph d a PGSIZE (physAddr f) perm = .ok (ph', d', true)) :
    Books g (ph'.incRef f) (d'::rest) own := by
  have hr := (hb.idle (f := f) (by simp [kept])).1
  rcases mappages_page_cases ha hk h with ⟨h0,-⟩ | ⟨-,d1,p,hg,hw,hp,-,rfl⟩
  · cases h0
  · exact (hg.books _ _ _ hb).mapCounted hk hw hp (entry_P f _)
      (pteFrame_entry f (inRange_lt hr) _ hperm)

theorem allocLoop_books {oldsz newsz n a r : ℕ} {ph ph' : Phys} {d d' : PageDir}
    (hn : newsz ≤ KERNBASE) (hlen : rest.length ≤ 126) (ha : a%PGSIZE = 0)
    (hb : Books g ph (d::rest) own) (h : allocLoop oldsz newsz n a ph d = .ok (ph', d', r)) :
    Books g ph' (d'::rest) own := by
  induction n generalizing a ph d with
  | zero =>
    cases h
    exact hb
  | succ n ih =>
    rcases allocLoop_cases h with ⟨-,rfl,rfl,-⟩ | ⟨-,-,s,h⟩ | ⟨f,fs,ph1,d1,done,hlt,hl,h1,hdone⟩
    · exact hb
    · exact (deallocuvm_books hn hlen hb h).1
    · have hk : a < KERNBASE := by omega
      have hb1 := (hb.kalloc hl).fill (f := f) (fun _ => 0)
      rcases hdone with ⟨rfl,h⟩ | ⟨rfl,-,ph2,s,h2,h3⟩
      · exact ih (by unfold PGSIZE at *; omega) (mapNew_books ha hk userPerm_low hb1 h1) h
      · rcases mappages_page_cases ha hk h1 with ⟨-,rfl,rfl,-⟩ | ⟨h0,-⟩
        · obtain ⟨hkf,hb3⟩ := (deallocuvm_books hn hlen hb1 h2).1.kfree
          rw [hkf] at h3
          cases h3
          exact hb3
        · cases h0

theorem allocuvm_books {oldsz newsz r : ℕ} {ph ph' : Phys} {d d' : PageDir}
    (hlen : rest.length ≤ 126) (hb : Books g ph (d::rest) own)
    (h : allocuvm ph d oldsz newsz = .ok (ph', d', r)) : Books g ph' (d'::rest) own := by
  rcases allocuvm_cases h with ⟨rfl,rfl,-⟩ | ⟨hk,-,h⟩
  · exact hb
  · exact allocLoop_books (by omega) hlen (by unfold PGROUNDUP PGSIZE; omega) hb h

theorem allocLoop_size {oldsz newsz n a r : ℕ} {ph ph' : Phys} {d d' : PageDir}
    (h : allocLoop oldsz newsz n a ph d = .ok (ph', d', r)) : r = newsz ∨ r = 0 := by
  induction n generalizing a ph d with
  | zero =>
    cases h
    exact Or.inl rfl
  | succ n ih =>
    rcases allocLoop_cases h with
      ⟨-,-,-,hr⟩ | ⟨-,hr,-⟩ | ⟨f,fs,ph1,d1,done,-,-,-,⟨-,h⟩ | ⟨-,hr,-⟩⟩
    · exact Or.inl hr
    · exact Or.inr hr
    · exact ih h
    · exact Or.inr hr

theorem allocuvm_size {oldsz newsz r : ℕ} {ph ph' : Phys} {d d' : PageDir}
    (h : allocuvm ph d oldsz newsz = .ok (ph', d', r)) :
    r = 0 ∨ newsz < KERNBASE ∧ r = max oldsz newsz := by
  rcases allocuvm_cases h with ⟨-,-,⟨hr,-⟩ | ⟨hr,hk,hlt⟩⟩ | ⟨hk,hle,h⟩
  · exact Or.inl hr
  · exact Or.inr ⟨hk,by omega⟩
  · rcases allocLoop_size h with hr | hr
    · exact Or.inr ⟨hk,by omega⟩
    · exact Or.inl hr

/-- `inituvm` ignores the result of `mappages`, so it needs a page for the page
table. -/
theorem inituvm_books {ph ph' : Phys} {d d' : PageDir} {init : List UInt8}
    (hfree : 2 ≤ ph.freelist.length) (hb : Books g ph (d::rest) own)
    (h : inituvm ph d init = .ok (ph', d')) : Books g ph' (d'::rest) own := by
  rw [inituvm] at h
  split at h
  · cases h
  · rcases kalloc_cases ph with ⟨-,hka⟩ | ⟨f,fs,hl,hka⟩
    · rw [hka] at h
      cases h
    · rw [hka] at h
      dsimp only at h
      rw [bind_ok] at h
      obtain ⟨⟨ph1,d1,r⟩,h1,h2⟩ := h
      cases h2
      have hb1 := (hb.kalloc hl).fill (f := f) (fun _ => 0)
      cases r with
      | true => exact (mapNew_books rfl (by decide) userPerm_low hb1 h1).fill _
      | false =>
        exfalso
        rcases mappages_page_cases rfl (by decide) h1 with ⟨-,-,-,h0⟩ | ⟨h0,-⟩
        · change fs = [] at h0
          rw [hl, h0] at hfree
          simp at hfree
        · cases h0

theorem copied_entry (f : ℕ) :
    physAddr f ||| PTE_P ||| PTE_W ||| PTE_U = physAddr f ||| (PTE_W ||| PTE_U) ||| PTE_P := by
  rw [BitVec.or_assoc (physAddr f), BitVec.or_assoc (physAddr f), BitVec.or_assoc (physAddr f)]
  rfl

/-- The four ways `pagefault` returns: the process is killed, with at most
nothing changed, or the faulting entry becomes writable. -/
theorem pagefault_cases {va : ℕ} {ph ph' : Phys} {d d' : PageDir} {kill : Bool}
    (h : pagefault ph d va = .ok (ph', d', kill)) :
    (kill = true ∧ ph' = ph ∧ d' = d) ∨
    ∃ p, kill = false ∧ va < KERNBASE ∧ d.walk va = some p ∧ has p PTE_P = true ∧
      has p PTE_U = true ∧ has p PTE_W = false ∧
      ((ph.pgRefcount (pteFrame p) = 1 ∧ ph' = ph ∧ d' = d.setPte va (reclaim p)) ∨
        ∃ f fs, 1 < ph.pgRefcount (pteFrame p) ∧ ph.freelist = f::fs ∧
          ph' = ((({ ph with freelist := fs } : Phys).fill f (ph.mem (pteFrame p))).decRef
            (pteFrame p)).incRef f ∧
          d' = d.setPte va (physAddr f ||| (PTE_W ||| PTE_U) ||| PTE_P)) := by
  rw [pagefault] at h
  split at h
  · cases h
    exact Or.inl ⟨rfl,rfl,rfl⟩
  · next hk =>
    split at h
    · cases h
      exact Or.inl ⟨rfl,rfl,rfl⟩
    · next p hw =>
      split at h
      · cases h
        exact Or.inl ⟨rfl,rfl,rfl⟩
      · next hPU =>
        have hPU' : has p PTE_P = true ∧ has p PTE_U = true := by simpa using hPU
        split at h
        · cases h
        · next hW =>
          have hW' : has p PTE_W = false := by simpa using hW
          split at h
          · next h1 =>
            cases h
            exact Or.inr ⟨p,rfl,by omega,hw,hPU'.1,hPU'.2,hW',Or.inl ⟨h1,rfl,rfl⟩⟩
          · split at h
            · next h1 =>
              rcases kalloc_cases ph with ⟨-,hka⟩ | ⟨f,fs,hl,hka⟩ <;> rw [hka] at h <;> cases h
              · exact Or.inl ⟨rfl,rfl,rfl⟩
              · exact Or.inr ⟨p,rfl,by omega,hw,hPU'.1,hPU'.2,hW',
                  Or.inr ⟨f,fs,h1,hl,rfl,by rw [copied_entry]⟩⟩
            · cases h

/-- `pagefault` keeps the ledger. A shared page is first given up, which leaves
it counted, and then the private copy is mapped in its place. -/
theorem pagefault_books {va : ℕ} {ph ph' : Phys} {d d' : PageDir} {kill : Bool}
    (hlen : rest.length ≤ 126) (hb : Books g ph (d::rest) own)
    (h : pagefault ph d va = .ok (ph', d', kill)) : Books g ph' (d'::rest) own := by
  rcases pagefault_cases h with ⟨-,rfl,rfl⟩ | ⟨p,-,hk,hw,hP,hU,hW,hc⟩
  · exact hb
  · have hc1 := hb.counted (pteFrame p)
    rcases hc with ⟨h1,rfl,rfl⟩ | ⟨f,fs,h1,hl,rfl,rfl⟩
    · refine hb.relabel hk hw (reclaim_P p) (reclaim_frame p) (fun _ _ => ?_) (fun _ h0 => ?_)
      · rcases hb.single (pteFrame p) with hu | hu <;> omega
      · rw [reclaim_W] at h0
        cases h0
    · have hb1 := (hb.kalloc hl).fill (f := f) (ph.mem (pteFrame p))
      have hr := (hb1.idle (f := f) (by simp [kept])).1
      have hpos : 0 < maps (d::rest) (pteFrame p) := by
        have := mapped_of_walk hk hw hP
        rw [maps_cons]
        omega
      have hdec := hb1.decRef_eq hlen hpos
      have hdrop : dropRef (({ ph with freelist := fs } : Phys).fill f (ph.mem (pteFrame p)))
          (pteFrame p) = .ok ((({ ph with freelist := fs } : Phys).fill f
            (ph.mem (pteFrame p))).decRef (pteFrame p)) := by
        rw [dropRef, hdec, if_neg]
        change ¬ ph.pgRefcount (pteFrame p)-1 = 0
        omega
      have hb2 := hb1.unmap hlen hk hw hP hdrop
      have hw2 : (d.setPte va 0#32).walk va = some 0#32 := by
        rw [setPte_walk d va va _ (by unfold KERNBASE at hk; omega)
          (by unfold KERNBASE at hk; omega), if_pos rfl, hw]
        rfl
      have hb3 := hb2.mapCounted hk hw2 zero_P (entry_P f _)
        (pteFrame_entry f (inRange_lt hr) _ userPerm_low)
      rw [setPte_setPte] at hb3
      exact hb3

end

end Xv6.GrowSpec
