import Xv6.Mem.CopySpec

/-!
# Enough memory

When the free list covers the page tables that are still missing, the mapping
functions succeed. The missing tables of a set of directory slots are a
potential: adding a table takes one frame and lowers the potential by one, so
the surplus of the free list over it never shrinks while pages are mapped.
-/

set_option autoImplicit false

namespace Xv6.Supply
open Xv6.Mmu Xv6.Kalloc Xv6.Paging Xv6.Uvm Xv6.Tally Xv6.MapSpec

/-- The directory slots of `s` without a page table. -/
def lack (s : Finset ℕ) (d : PageDir) : ℕ := tally s (fun i => (d.pde i).isNone = true)

/-- Memory and directory before and after: frames come off the front of the
list and the surplus is the same. -/
structure Fed (s : Finset ℕ) (ph : Phys) (d : PageDir) (ph' : Phys) (d' : PageDir) : Prop where
  len : ph'.freelist.length+lack s d = ph.freelist.length+lack s d'
  suffix : ph'.freelist <:+ ph.freelist

theorem Fed.refl (s : Finset ℕ) (ph : Phys) (d : PageDir) : Fed s ph d ph d :=
  ⟨rfl,List.suffix_refl _⟩

theorem Fed.trans {s : Finset ℕ} {ph ph' ph'' : Phys} {d d' d'' : PageDir}
    (h : Fed s ph d ph' d') (h' : Fed s ph' d' ph'' d'') : Fed s ph d ph'' d'' := by
  have h1 := h.len
  have h2 := h'.len
  exact ⟨by omega,h'.suffix.trans h.suffix⟩

theorem Fed.covers {s : Finset ℕ} {ph ph' : Phys} {d d' : PageDir} (h : Fed s ph d ph' d')
    (hf : lack s d ≤ ph.freelist.length) : lack s d' ≤ ph'.freelist.length := by
  have := h.len
  omega

theorem setPte_lack (s : Finset ℕ) (d : PageDir) (va : ℕ) (p : Pte) :
    lack s (d.setPte va p) = lack s d := by
  apply tally_congr
  intro i _
  dsimp only [PageDir.setPte]
  split <;> simp

theorem Fed.setPte {s : Finset ℕ} {ph ph' : Phys} {d d' : PageDir} (h : Fed s ph d ph' d')
    (va : ℕ) (p : Pte) : Fed s ph d ph' (d'.setPte va p) :=
  ⟨by rw [setPte_lack]; exact h.len,h.suffix⟩

theorem addTable_lack (s : Finset ℕ) (d : PageDir) {i f : ℕ} (hi : i ∈ s) (hn : d.pde i = none) :
    lack s (d.addTable i f)+1 = lack s d := by
  have := tally_update s (fun i => (d.pde i).isNone = true)
    (fun j => ((d.addTable i f).pde j).isNone = true) i hi
    (fun j _ hj => by simp [PageDir.addTable, Function.update_of_ne hj])
  simp only [hn, PageDir.addTable, Function.update_self, Option.isNone_none, if_true,
    Option.isNone_some, Bool.false_eq_true, if_false, Nat.add_zero] at this
  exact this

theorem walkpgdir_fed {s : Finset ℕ} {ph : Phys} {d : PageDir} {va : ℕ} (hs : PDX va ∈ s)
    (hf : lack s d ≤ ph.freelist.length) :
    ∃ ph' d' p, walkpgdir ph d va true = (ph', d', some p) ∧ Fed s ph d ph' d' := by
  rcases walkpgdir_cases ph d va with ⟨p,-,he⟩ | ⟨hw,hl,-⟩ | ⟨f,fs,hw,hl,he⟩
  · exact ⟨ph,d,p,he,Fed.refl s ph d⟩
  · exfalso
    have hn : d.pde (PDX va) = none := by simpa [PageDir.walk] using hw
    have : 0 < lack s d := (tally_pos _ _).mpr ⟨PDX va,hs,by rw [hn]; rfl⟩
    rw [hl] at hf
    simp at hf
    omega
  · refine ⟨_,_,_,he,?_⟩
    have hn : d.pde (PDX va) = none := by simpa [PageDir.walk] using hw
    have := addTable_lack (f := f) s d hs hn
    refine ⟨?_,?_⟩
    · rw [hl, List.length_cons]
      dsimp only
      omega
    · rw [hl]
      exact List.suffix_cons f fs

theorem mapLoop_covered {s : Finset ℕ} {n a : ℕ} {ph ph' : Phys} {d d' : PageDir} {pa perm : Pte}
    {r : Bool} (hlt : a+n*PGSIZE ≤ 2^32) (hs : ∀ va, a ≤ va → va < a+n*PGSIZE → PDX va ∈ s)
    (hf : lack s d ≤ ph.freelist.length) (h : mapLoop n ph d a pa perm = .ok (ph', d', r)) :
    r = true ∧ Fed s ph d ph' d' := by
  induction n generalizing a ph d pa with
  | zero =>
    cases h
    exact ⟨rfl,Fed.refl s _ _⟩
  | succ n ih =>
    obtain ⟨ph1,d1,p,hw,hfed⟩ := walkpgdir_fed (hs a (le_refl a) (by unfold PGSIZE; omega)) hf
    rw [mapLoop, hw] at h
    dsimp only at h
    split at h
    · cases h
    · cases n with
      | zero =>
        cases h
        exact ⟨rfl,hfed.setPte _ _⟩
      | succ m =>
        rw [Nat.mod_eq_of_lt (a := a+PGSIZE) (by unfold PGSIZE at *; omega)] at h
        obtain ⟨hr,hfed2⟩ := ih (by unfold PGSIZE at *; omega)
          (fun va h1 h2 => hs va (by omega) (by unfold PGSIZE at *; omega))
          ((hfed.setPte _ _).covers hf) h
        exact ⟨hr,(hfed.setPte _ _).trans hfed2⟩

theorem mapLoop_fed {s : Finset ℕ} {n a : ℕ} (ph : Phys) (d : PageDir) (pa perm : Pte)
    (hlt : a+n*PGSIZE ≤ 2^32) (ha : a%PGSIZE = 0)
    (hs : ∀ va, a ≤ va → va < a+n*PGSIZE → PDX va ∈ s)
    (hp : ∀ va, a ≤ va → va < a+n*PGSIZE → has (d.leaf va) PTE_P = false)
    (hf : lack s d ≤ ph.freelist.length) :
    ∃ ph' d', mapLoop n ph d a pa perm = .ok (ph', d', true) ∧ Fed s ph d ph' d' ∧
      ∀ va, va < 2^32 → (va < a ∨ a+n*PGSIZE ≤ va) → d'.leaf va = d.leaf va := by
  obtain ⟨ph1,d1,r,h,hout⟩ := mapLoop_free ph d pa perm hlt ha hp
  obtain ⟨rfl,hfed⟩ := mapLoop_covered hlt hs hf h
  exact ⟨ph1,d1,h,hfed,hout⟩

/-- The directory slots used by the kernel mappings and the first user slot. -/
def slots : Finset ℕ := {0} ∪ Finset.Icc 512 567 ∪ Finset.Icc 1016 1023

theorem slots_card : slots.card = 65 := by decide +kernel

def kstart (k : Kmap) : ℕ := PGROUNDDOWN (k.virt%2^32)

def kpages (k : Kmap) : ℕ :=
  ((PGROUNDDOWN ((k.virt+(k.physEnd+2^32-k.physStart)%2^32+2^32-1)%2^32)+2^32-kstart k)%2^32)/
    PGSIZE+1

/-- The entries of `kmap` follow each other from address `b` on. -/
def Laid : ℕ → List Kmap → Prop
  | _, [] => True
  | b, k::ks => b ≤ kstart k ∧ kstart k+kpages k*PGSIZE ≤ 2^32 ∧ kstart k%PGSIZE = 0 ∧
      (512 ≤ kstart k/2^22 ∧ (kstart k+kpages k*PGSIZE-1)/2^22 ≤ 567 ∨ 1016 ≤ kstart k/2^22) ∧
      Laid (kstart k+kpages k*PGSIZE) ks

theorem kmap_laid : Laid KERNBASE kmap := by
  simp only [Laid, kmap]
  decide

def kernelSlots : Finset ℕ := Finset.Icc 512 567 ∪ Finset.Icc 1016 1023

theorem mem_kernelSlots {va a e : ℕ} (h : 512 ≤ a/2^22 ∧ (e-1)/2^22 ≤ 567 ∨ 1016 ≤ a/2^22)
    (ha : a ≤ va) (he : va < e) (he32 : e ≤ 2^32) : PDX va ∈ kernelSlots := by
  have h1 : PDX va = va/2^22 := Nat.mod_eq_of_lt (by omega)
  rw [h1, kernelSlots]
  simp only [Finset.mem_union, Finset.mem_Icc]
  omega

theorem kmapLoop_fed {s : Finset ℕ} {ks : List Kmap} {b : ℕ} (hs : kernelSlots ⊆ s) (ph : Phys)
    (d : PageDir) (hl : Laid b ks) (hp : ∀ va, b ≤ va → va < 2^32 → has (d.leaf va) PTE_P = false)
    (hf : lack s d ≤ ph.freelist.length) :
    ∃ ph' d', kmapLoop ks ph d = .ok (ph', some d') ∧ Fed s ph d ph' d' := by
  induction ks generalizing b ph d with
  | nil => exact ⟨ph,d,rfl,Fed.refl s ph d⟩
  | cons k ks ih =>
    obtain ⟨h1,h2,h3,h4,h5⟩ := hl
    obtain ⟨ph1,d1,hm,hfed,hout⟩ := mapLoop_fed (s := s) (n := kpages k) (a := kstart k)
      ph d (BitVec.ofNat 32 k.physStart) k.perm h2 h3
      (fun va hva hlt => hs (mem_kernelSlots h4 hva hlt h2))
      (fun va hva hlt => hp va (by omega) (by omega)) hf
    have hmap : mappages ph d k.virt ((k.physEnd+2^32-k.physStart)%2^32)
        (BitVec.ofNat 32 k.physStart) k.perm = .ok (ph1, d1, true) := hm
    obtain ⟨ph2,d2,hr,hfed2⟩ := ih ph1 d1 h5
      (fun va hva hlt => by
        rw [hout va hlt (Or.inr hva)]
        exact hp va (by omega) hlt) (hfed.covers hf)
    refine ⟨ph2,d2,?_,hfed.trans hfed2⟩
    rw [kmapLoop, hmap]
    exact hr

theorem setupkvm_feeds {s : Finset ℕ} (hs : kernelSlots ⊆ s) (ph : Phys)
    (hf : s.card+1 ≤ ph.freelist.length) :
    ∃ ph' d, setupkvm ph = .ok (ph', some d) ∧
      ph'.freelist.length+(s.card+1) = ph.freelist.length+lack s d ∧
      ph'.freelist <:+ ph.freelist := by
  have hblank : ∀ f, lack s ⟨f, fun _ => none⟩ = s.card := by
    intro f
    rw [lack, tally, Finset.filter_true_of_mem]
    intro i _
    rfl
  rcases kalloc_cases ph with ⟨h0,-⟩ | ⟨f,fs,hl,hk⟩
  · rw [h0] at hf
    simp at hf
  · rw [hl, List.length_cons] at hf
    obtain ⟨ph1,d,h1,hfed⟩ := kmapLoop_fed hs { ph with freelist := fs }
      ⟨f, fun _ => none⟩ kmap_laid (fun va _ _ => Ledger.newDir_leaf f va ▸ zero_P)
      (by rw [hblank]; dsimp only; omega)
    refine ⟨ph1,d,?_,?_,?_⟩
    · rw [setupkvm, hk]
      dsimp only
      rw [if_neg (by decide)]
      exact h1
    · have hlen := hfed.len
      rw [hblank] at hlen
      rw [hl, List.length_cons]
      dsimp only at hlen
      omega
    · rw [hl]
      exact hfed.suffix.trans (List.suffix_cons f fs)

theorem kernelSlots_slots : kernelSlots ⊆ slots := by
  intro i hi
  simp only [kernelSlots, slots, Finset.mem_union, Finset.mem_singleton, Finset.mem_Icc] at hi ⊢
  omega

theorem setupkvm_fed (ph : Phys) (hf : 66 ≤ ph.freelist.length) :
    ∃ ph' d, setupkvm ph = .ok (ph', some d) ∧
      ph'.freelist.length+66 = ph.freelist.length+lack slots d ∧
      ph'.freelist <:+ ph.freelist := by
  obtain ⟨ph',d,h,hlen,hsuf⟩ := setupkvm_feeds kernelSlots_slots ph (by rw [slots_card]; exact hf)
  rw [slots_card] at hlen
  exact ⟨ph',d,h,hlen,hsuf⟩

theorem zero_slots : 0 ∈ slots := by simp [slots]

theorem walk_of_present {d : PageDir} {va : ℕ} (h : has (d.leaf va) PTE_P = true) :
    d.walk va = some (d.leaf va) := by
  cases hw : d.walk va with
  | none =>
    rw [leaf_of_walk_none hw, zero_P] at h
    cases h
  | some p => rw [leaf_of_walk hw]

theorem mappages_fed (ph : Phys) (d : PageDir) {a : ℕ} (pa perm : Pte) (ha : a%PGSIZE = 0)
    (hlt : a+PGSIZE ≤ 2^22) (hp : has (d.leaf a) PTE_P = false)
    (hf : lack slots d ≤ ph.freelist.length) :
    ∃ ph' d', mappages ph d a PGSIZE pa perm = .ok (ph', d', true) ∧ Fed slots ph d ph' d' ∧
      ph'.pgRefcount = ph.pgRefcount ∧ ph'.mem = ph.mem ∧
      ∀ v < UPAGES, d'.leaf (v*PGSIZE) =
        if v = a/PGSIZE then pa ||| perm ||| PTE_P else d.leaf (v*PGSIZE) := by
  have hk : a < KERNBASE := by unfold KERNBASE PGSIZE at *; omega
  have hpage : ∀ va, a ≤ va → va < a+1*PGSIZE → d.leaf va = d.leaf a := by
    intro va h1 h2
    rw [← Ledger.leaf_page d va, ← Ledger.leaf_page d a]
    congr 2
    unfold PGSIZE at *
    omega
  obtain ⟨ph1,d1,h1,hfed,-⟩ := mapLoop_fed (s := slots) (n := 1) (a := a) ph d pa perm
    (by unfold PGSIZE at *; omega) ha
    (fun va h1 h2 => by
      have : PDX va = 0 := by unfold PDX PGSIZE at *; omega
      rw [this]
      exact zero_slots)
    (fun va h1 h2 => by rw [hpage va h1 h2]; exact hp) hf
  rw [← mappages_page ph d a pa perm ha hk] at h1
  refine ⟨ph1,d1,h1,hfed,?_⟩
  rcases mappages_page_cases ha hk h1 with ⟨h0,-⟩ | ⟨-,d2,p,hg,hw,-,-,rfl⟩
  · cases h0
  · refine ⟨hg.ref,hg.mem,fun v hv => ?_⟩
    rw [Ledger.setPte_leaf_page d2 a v p _ hk hv hw]
    split
    · rfl
    · exact hg.leaf _ (by rw [UPAGES_eq] at hv; unfold KERNBASE PGSIZE; omega)

/-- The pages a copying loop visits: present in the parent, absent in the child. -/
structure Ready (pgdir d : PageDir) (i n : ℕ) : Prop where
  aligned : i%PGSIZE = 0
  small : i+n*PGSIZE ≤ 2^22
  present : ∀ v, i ≤ v*PGSIZE → v*PGSIZE < i+n*PGSIZE → has (pgdir.leaf (v*PGSIZE)) PTE_P = true
  absent : ∀ v, i ≤ v*PGSIZE → v*PGSIZE < i+n*PGSIZE → has (d.leaf (v*PGSIZE)) PTE_P = false

theorem Ready.here {pgdir d : PageDir} {i n : ℕ} (h : Ready pgdir d i (n+1)) :
    i+PGSIZE ≤ 2^22 ∧ i/PGSIZE*PGSIZE = i ∧ i/PGSIZE < UPAGES ∧
      pgdir.walk i = some (pgdir.leaf i) ∧ has (pgdir.leaf i) PTE_P = true ∧
      has (d.leaf i) PTE_P = false := by
  have h1 := h.aligned
  have h2 := h.small
  have he : i/PGSIZE*PGSIZE = i := by unfold PGSIZE at *; omega
  have hp := h.present (i/PGSIZE) (by omega) (by rw [he]; unfold PGSIZE; omega)
  have ha := h.absent (i/PGSIZE) (by omega) (by rw [he]; unfold PGSIZE; omega)
  rw [he] at hp ha
  refine ⟨by unfold PGSIZE at *; omega,he,?_,walk_of_present hp,hp,ha⟩
  rw [UPAGES_eq]
  unfold PGSIZE at *
  omega

theorem Ready.next {pgdir pgdir' d d' : PageDir} {i n : ℕ} (h : Ready pgdir d i (n+1))
    (hp : ∀ v < UPAGES, v ≠ i/PGSIZE → pgdir'.leaf (v*PGSIZE) = pgdir.leaf (v*PGSIZE))
    (hd : ∀ v < UPAGES, v ≠ i/PGSIZE → d'.leaf (v*PGSIZE) = d.leaf (v*PGSIZE)) :
    Ready pgdir' d' (i+PGSIZE) n := by
  have h1 := h.aligned
  have h2 := h.small
  have hv : ∀ v, i+PGSIZE ≤ v*PGSIZE → v*PGSIZE < i+PGSIZE+n*PGSIZE →
      v < UPAGES ∧ v ≠ i/PGSIZE ∧ i ≤ v*PGSIZE ∧ v*PGSIZE < i+(n+1)*PGSIZE := by
    intro v h3 h4
    rw [UPAGES_eq]
    unfold PGSIZE at *
    omega
  refine ⟨by unfold PGSIZE at *; omega,by unfold PGSIZE at *; omega,?_,?_⟩
  · intro v h3 h4
    obtain ⟨a,b,c,e⟩ := hv v h3 h4
    rw [hp v a b]
    exact h.present v c e
  · intro v h3 h4
    obtain ⟨a,b,c,e⟩ := hv v h3 h4
    rw [hd v a b]
    exact h.absent v c e

/-- How often the pages from `i` on map the frame `f`. -/
def hits (pgdir : PageDir) : ℕ → ℕ → ℕ → ℕ
  | 0, _, _ => 0
  | n+1, i, f => (if pteFrame (pgdir.leaf i) = f then 1 else 0)+hits pgdir n (i+PGSIZE) f

theorem hits_congr {pgdir pgdir' : PageDir} {n i f : ℕ} (hi : i%PGSIZE = 0)
    (h : ∀ v, i ≤ v*PGSIZE → v*PGSIZE < i+n*PGSIZE →
      pteFrame (pgdir'.leaf (v*PGSIZE)) = pteFrame (pgdir.leaf (v*PGSIZE))) :
    hits pgdir' n i f = hits pgdir n i f := by
  induction n generalizing i with
  | zero => rfl
  | succ n ih =>
    have hie : i/PGSIZE*PGSIZE = i := by unfold PGSIZE at *; omega
    have h0 := h (i/PGSIZE) (by omega) (by rw [hie]; unfold PGSIZE; omega)
    rw [hie] at h0
    rw [hits, hits, h0, ih (by unfold PGSIZE at *; omega)
      (fun v h1 h2 => h v (by omega) (by unfold PGSIZE at *; omega))]

theorem hits_const {d : PageDir} {n a f : ℕ} (ha : a%PGSIZE = 0)
    (h : ∀ v, a ≤ v*PGSIZE → v*PGSIZE < a+n*PGSIZE → pteFrame (d.leaf (v*PGSIZE)) = f) :
    hits d n a f = n := by
  induction n generalizing a with
  | zero => rfl
  | succ n ih =>
    have hie : a/PGSIZE*PGSIZE = a := by unfold PGSIZE at *; omega
    have h0 := h (a/PGSIZE) (by omega) (by rw [hie]; unfold PGSIZE; omega)
    rw [hie] at h0
    rw [hits, if_pos h0, ih (by unfold PGSIZE at *; omega)
      (fun v h1 h2 => h v (by omega) (by unfold PGSIZE at *; omega)), Nat.add_comm]

theorem toChar_add (z : ℤ) (m : ℕ) : toChar (toChar (z+1)+m) = toChar (z+(m+1 : ℕ)) := by
  unfold toChar
  push_cast
  omega

theorem toChar_idem (z : ℤ) : toChar (toChar z) = toChar z := by
  unfold toChar
  omega

/-- `copyuvmcow`'s loop runs through: both directories map the same frames write
protected, and each counter moves by the number of pages that map the frame. -/
theorem cowLoop_runs {n i : ℕ} (ph : Phys) (pgdir d : PageDir) (hr : Ready pgdir d i n)
    (hf : lack slots d ≤ ph.freelist.length) (hc : ∀ f, toChar (ph.pgRefcount f) = ph.pgRefcount f) :
    ∃ ph' pgdir' c, cowLoop n i ph pgdir d = .ok (ph', pgdir', some c) ∧ Fed slots ph d ph' c ∧
      ph'.mem = ph.mem ∧
      (∀ f, ph'.pgRefcount f = toChar (ph.pgRefcount f+hits pgdir n i f)) ∧
      (∀ v, i ≤ v*PGSIZE → v*PGSIZE < i+n*PGSIZE →
        c.leaf (v*PGSIZE) = protect (pgdir.leaf (v*PGSIZE)) ∧
        pgdir'.leaf (v*PGSIZE) = markCow (protect (pgdir.leaf (v*PGSIZE)))) ∧
      ∀ v < UPAGES, (v*PGSIZE < i ∨ i+n*PGSIZE ≤ v*PGSIZE) →
        c.leaf (v*PGSIZE) = d.leaf (v*PGSIZE) ∧ pgdir'.leaf (v*PGSIZE) = pgdir.leaf (v*PGSIZE) := by
  induction n generalizing i ph d pgdir with
  | zero =>
    refine ⟨ph,pgdir,d,rfl,Fed.refl _ _ _,rfl,fun f => ?_,fun v h1 h2 => by omega,
      fun _ _ _ => ⟨rfl,rfl⟩⟩
    rw [hits, Nat.cast_zero, Int.add_zero, hc]
  | succ n ih =>
    obtain ⟨hi,hie,hiu,hw,hP,hA⟩ := hr.here
    have hal := hr.aligned
    have hik : i < KERNBASE := by unfold KERNBASE PGSIZE at *; omega
    obtain ⟨ph1,d1,h1,hfed,href,hmem,hleaf⟩ := mappages_fed ph d
      (pteAddr (protect (pgdir.leaf i))) (pteFlags (protect (pgdir.leaf i))) hal hi
      hA hf
    have hpar : ∀ v < UPAGES, (pgdir.setPte i (markCow (protect (pgdir.leaf i)))).leaf (v*PGSIZE) =
        if v = i/PGSIZE then markCow (protect (pgdir.leaf i)) else pgdir.leaf (v*PGSIZE) :=
      fun v hv => Ledger.setPte_leaf_page pgdir i v _ _ hik hv hw
    have hinc : ∀ f, (ph1.incRef (pteFrame (pgdir.leaf i))).pgRefcount f =
        if pteFrame (pgdir.leaf i) = f then toChar (ph.pgRefcount f+1) else ph.pgRefcount f := by
      intro f
      by_cases h : pteFrame (pgdir.leaf i) = f
      · rw [if_pos h, ← h, incRef_self, href]
      · rw [if_neg h, incRef_other ph1 (Ne.symm h), href]
    have hfed1 : Fed slots ph d (ph1.incRef (pteFrame (pgdir.leaf i))) d1 :=
      ⟨hfed.len,hfed.suffix⟩
    obtain ⟨ph2,pg2,c,h2,hfed2,hmem2,href2,hin,hout⟩ := ih
      (ph1.incRef (pteFrame (pgdir.leaf i)))
      (pgdir.setPte i (markCow (protect (pgdir.leaf i)))) d1
      (hr.next (fun v hv hne => by rw [hpar v hv, if_neg hne])
        (fun v hv hne => by rw [hleaf v hv, if_neg hne]))
      (hfed1.covers hf)
      (fun f => by rw [hinc]; split; exacts [toChar_idem _,hc f])
    refine ⟨ph2,pg2,c,?_,hfed1.trans hfed2,hmem2.trans hmem,?_,?_,?_⟩
    · rw [cowLoop, hw]
      dsimp only
      rw [if_pos hP, h1]
      simp only [bind, Except.bind, if_true]
      rw [setPte_setPte]
      exact h2
    · intro f
      rw [href2, hinc, hits]
      have hh : hits (pgdir.setPte i (markCow (protect (pgdir.leaf i)))) n (i+PGSIZE) f =
          hits pgdir n (i+PGSIZE) f := by
        apply hits_congr (by unfold PGSIZE at *; omega)
        intro v h3 h4
        have h5 := hr.small
        rw [hpar v (by rw [UPAGES_eq]; unfold PGSIZE at *; omega), if_neg]
        unfold PGSIZE at *
        omega
      rw [hh]
      split
      · rw [toChar_add, Nat.add_comm 1]
      · rw [Nat.zero_add]
    · intro v h3 h4
      by_cases hv : v = i/PGSIZE
      · obtain ⟨hc1,hc2⟩ := hout (i/PGSIZE) hiu (by rw [hie]; unfold PGSIZE; omega)
        rw [hv, hc1, hc2, hleaf _ hiu, hpar _ hiu, if_pos rfl, if_pos rfl, hie,
          addr_flags_entry _ (by rw [protect_P, hP])]
        exact ⟨rfl,rfl⟩
      · have h5 := hr.small
        have hvu : v < UPAGES := by rw [UPAGES_eq]; unfold PGSIZE at *; omega
        obtain ⟨hc1,hc2⟩ := hin v (by unfold PGSIZE at *; omega) (by unfold PGSIZE at *; omega)
        rw [hpar v hvu, if_neg hv] at hc1 hc2
        exact ⟨hc1,hc2⟩
    · intro v hv h3
      have hne : v ≠ i/PGSIZE := by unfold PGSIZE at *; omega
      obtain ⟨hc1,hc2⟩ := hout v hv (by unfold PGSIZE at *; omega)
      rw [hc1, hc2, hleaf v hv, hpar v hv, if_neg hne, if_neg hne]
      exact ⟨rfl,rfl⟩

end Xv6.Supply
