import Xv6.Mem.Supply

/-!
# What `setupkvm` installs

The entry that the passes over `kmap` leave at each address, and the two halves of an
address space: the entries of `kmap` above `KERNBASE`, frames of the allocator's range
below it. Storing a user entry and mapping a user page keep both halves. Page tables are
made for the addresses of `kmap` only.
-/

set_option autoImplicit false

namespace Xv6.KernelHalf
open Xv6.Mmu Xv6.Kalloc Xv6.Paging Xv6.Ledger Xv6.Uvm Xv6.Halting Xv6.MapSpec Xv6.GrowSpec
open Xv6.Supply

/-! ## What `kmap` installs -/

/-- The first address that `mappages` maps for an entry of `kmap`. -/
def base (k : Kmap) : ℕ := PGROUNDDOWN (k.virt%2^32)

def pages (k : Kmap) : ℕ :=
  (((PGROUNDDOWN ((k.virt+(k.physEnd+2^32-k.physStart)%2^32+2^32-1)%2^32))+2^32-base k)%2^32)/PGSIZE+1

def Covers (k : Kmap) (va : ℕ) : Prop := base k ≤ va ∧ va < base k+pages k*PGSIZE

instance (k : Kmap) (va : ℕ) : Decidable (Covers k va) := inferInstanceAs (Decidable (_ ∧ _))

def entry (k : Kmap) (va : ℕ) : Pte :=
  physAddr (k.physStart/PGSIZE+(va-base k)/PGSIZE) ||| k.perm ||| PTE_P

/-- The entry at `va` after the passes over `ks` on a directory that had `p`. -/
def laid (ks : List Kmap) (p : Pte) (va : ℕ) : Pte :=
  ks.foldl (fun p k => if Covers k va then entry k va else p) p

def kernelLeaf (va : ℕ) : Pte := laid kmap 0#32 va

theorem laid_user {ks : List Kmap} (hk : ∀ k ∈ ks, KernelRange k) {p : Pte} {va : ℕ}
    (hva : va < KERNBASE) : laid ks p va = p := by
  induction ks generalizing p with
  | nil => rfl
  | cons k ks ih =>
    have hbase := (hk k List.mem_cons_self).1
    have hno : ¬ Covers k va := fun hc => absurd (hbase.trans hc.1) (Nat.not_le.mpr hva)
    show laid ks (if Covers k va then entry k va else p) va = p
    rw [if_neg hno]
    exact ih fun k hm => hk k (List.mem_cons_of_mem _ hm)

theorem mapLoop_leaf {n a m : ℕ} {ph ph' : Phys} {d d' : PageDir} {perm : Pte} (ha : a%PGSIZE = 0)
    (hlt : a+n*PGSIZE ≤ 2^32) (h : mapLoop n ph d a (physAddr m) perm = .ok (ph', d', true))
    {va : ℕ} (hva : va < 2^32) :
    d'.leaf va = if a ≤ va ∧ va < a+n*PGSIZE then physAddr (m+(va-a)/PGSIZE) ||| perm ||| PTE_P
      else d.leaf va := by
  obtain ⟨k,-,hk,-,hleaf⟩ := mapLoop_mapped ha hlt h
  rw [hleaf va hva, hk.mp rfl, mapped, physAddr, physAddr, ← BitVec.ofNat_add, ← Nat.add_mul]

theorem kmap_leaf {k : Kmap} (hk : KernelRange k) {ph ph' : Phys} {d d' : PageDir}
    (h : mappages ph d k.virt ((k.physEnd+2^32-k.physStart)%2^32)
      (BitVec.ofNat 32 k.physStart) k.perm = .ok (ph', d', true)) {va : ℕ} (hva : va < 2^32) :
    d'.leaf va = if Covers k va then entry k va else d.leaf va := by
  have hpa : BitVec.ofNat 32 k.physStart = physAddr (k.physStart/PGSIZE) := by
    rw [physAddr, hk.2.2.2]
  rw [hpa] at h
  have ha : base k%PGSIZE = 0 := Nat.mul_mod_left _ _
  exact mapLoop_leaf ha hk.2.1 h hva

theorem kmapLoop_leaf {ks : List Kmap} (hk : ∀ k ∈ ks, KernelRange k) {ph ph' : Phys}
    {d d' : PageDir} (h : kmapLoop ks ph d = .ok (ph', some d')) {va : ℕ} (hva : va < 2^32) :
    d'.leaf va = laid ks (d.leaf va) va := by
  induction ks generalizing ph d with
  | nil =>
    cases h
    rfl
  | cons k ks ih =>
    obtain ⟨ph1,d1,done,h1,⟨rfl,h2⟩ | ⟨-,h0,-⟩⟩ := kmapLoop_cases h
    · rw [ih (fun k hm => hk k (List.mem_cons_of_mem _ hm)) h2,
        kmap_leaf (hk k List.mem_cons_self) h1 hva]
      rfl
    · cases h0

/-! ## Address spaces -/

/-- Above `KERNBASE` the entries of `kmap`, below it frames of the allocator's range. -/
structure Space (d : PageDir) : Prop where
  kernel : ∀ va, KERNBASE ≤ va → va < 2^32 → d.leaf va = kernelLeaf va
  user : ∀ va < KERNBASE, has (d.leaf va) PTE_P = true → InRange (pteFrame (d.leaf va))

def Stock (ph : Phys) : Prop := ∀ f ∈ ph.freelist, InRange f

section
variable {ph ph' : Phys} {d d' : PageDir} {va : ℕ} {p q : Pte}

theorem setupkvm_space (h : setupkvm ph = .ok (ph', some d)) : Space d := by
  rcases setupkvm_cases h with ⟨-,-,h0⟩ | ⟨f,fs,-,h⟩
  · cases h0
  · refine ⟨fun va _ hva => kmapLoop_leaf kmap_range h hva,fun va hva hP => ?_⟩
    rw [kmapLoop_leaf kmap_range h (by unfold KERNBASE at hva; omega), laid_user kmap_range hva,
      newDir_leaf] at hP
    cases hP

theorem Space.setPte (h : Space d) (hva : va < KERNBASE) (hw : d.walk va = some p)
    (hq : has q PTE_P = true → InRange (pteFrame q)) : Space (d.setPte va q) := by
  have hva32 : va < 2^32 := by unfold KERNBASE at hva; omega
  constructor
  · intro va' hk hlt
    have hne : va'/PGSIZE ≠ va/PGSIZE := by unfold KERNBASE PGSIZE at *; omega
    rw [setPte_leaf d va va' q p hva32 hlt hw, if_neg hne]
    exact h.kernel va' hk hlt
  · intro va' hlt hP
    rw [setPte_leaf d va va' q p hva32 (by unfold KERNBASE at hlt; omega) hw] at hP ⊢
    by_cases hpage : va'/PGSIZE = va/PGSIZE
    · rw [if_pos hpage] at hP ⊢
      exact hq hP
    · rw [if_neg hpage] at hP ⊢
      exact h.user va' hlt hP

theorem Space.congr (h : Space d) (hleaf : ∀ va, d'.leaf va = d.leaf va) : Space d' := by
  constructor
  · intro va hk hlt
    rw [hleaf]
    exact h.kernel va hk hlt
  · intro va hlt hP
    rw [hleaf] at hP ⊢
    exact h.user va hlt hP

theorem Space.walk (h : Space d) (hva : va < KERNBASE) (hw : d.walk va = some p)
    (hP : has p PTE_P = true) : InRange (pteFrame p) := by
  have hu := h.user va hva
  rw [leaf_of_walk hw] at hu
  exact hu hP

theorem Stock.kalloc {f : ℕ} {fs : List ℕ} (h : Stock ph) (hl : ph.freelist = f::fs) :
    InRange f ∧ Stock { ph with freelist := fs } := by
  have hmem : ∀ x ∈ f::fs, InRange x := by
    rw [← hl]
    exact h
  exact ⟨hmem f List.mem_cons_self,fun x hx => hmem x (List.mem_cons_of_mem f hx)⟩

theorem Stock.kfree {f : ℕ} (h : Stock ph) (hf : Kalloc.kfree ph f = .ok ph') : Stock ph' := by
  rw [Kalloc.kfree] at hf
  split at hf
  · next hr =>
    cases hf
    intro x hx
    rcases List.mem_cons.mp hx with rfl | hx
    · exact hr
    · exact h x hx
  · cases hf

theorem Stock.kfrees {fs : List ℕ} (h : Stock ph) (hf : fs.foldlM Kalloc.kfree ph = .ok ph') :
    Stock ph' := by
  induction fs generalizing ph with
  | nil =>
    cases hf
    exact h
  | cons f fs ih =>
    rw [List.foldlM_cons, bind_ok] at hf
    obtain ⟨ph1,h1,hf⟩ := hf
    exact ih (h.kfree h1) hf

theorem Stock.dropRef {f : ℕ} (h : Stock ph) (hf : Uvm.dropRef ph f = .ok ph') : Stock ph' := by
  have hdec : Stock (ph.decRef f) := h
  rw [Uvm.dropRef] at hf
  split at hf
  · exact hdec.kfree hf
  · cases hf
    exact hdec

theorem mappages_space {a : ℕ} {pa perm : Pte} {r : Bool} (hs : Stock ph) (h : Space d)
    (ha : a%PGSIZE = 0) (hlt : a < KERNBASE) (hr : InRange (pteFrame (pa ||| perm ||| PTE_P)))
    (hm : mappages ph d a PGSIZE pa perm = .ok (ph', d', r)) : Stock ph' ∧ Space d' := by
  rw [mappages_page ph d a pa perm ha hlt, mapLoop] at hm
  rcases walkpgdir_cases ph d a with ⟨p,hw,he⟩ | ⟨-,-,he⟩ | ⟨f,fs,hw,hl,he⟩ <;> rw [he] at hm <;>
    dsimp only at hm
  · split at hm
    · cases hm
    · cases hm
      exact ⟨hs,h.setPte hlt hw fun _ => hr⟩
  · cases hm
    exact ⟨hs,h⟩
  · rw [if_neg (by decide)] at hm
    cases hm
    have ht : Space (d.addTable (PDX a) f) := h.congr fun va => addTable_leaf d a va f hw
    exact ⟨(hs.kalloc hl).2,ht.setPte hlt (addTable_walk d a f) fun _ => hr⟩

end

/-! ## Where there are page tables -/

section
variable {ph ph' : Phys} {d d' : PageDir} {i : ℕ}

end

end Xv6.KernelHalf
