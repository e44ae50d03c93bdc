import Xv6.Proc.NoPanic
import Xv6.Proc.Faults

/-!
# Page faults from kernel mode

A system call stores through a user pointer that `argptr` has compared with `sz`
only. When the store faults, `pagefault` makes the page writable if user mode may
use the page and a frame is there for the copy. On the guard page of `exec`, once
`forkcow` has write protected it, `pagefault` only marks the process as killed,
and the store faults again forever.
-/

set_option autoImplicit false

namespace Xv6.Kern
open Xv6.Mmu Xv6.Kalloc Xv6.Paging Xv6.Uvm Xv6.Table Xv6.Ledger Xv6.Halting
open Xv6.MapSpec Xv6.GrowSpec Xv6.Extents Xv6.Supply

/-- The condition on a run: the forks keep the counters of write-protected user
pages positive, and no `sbrk` gives back the whole address space or more. -/
def Supported (k : Kernel) (i : Fin NPROC) (op : Op) : Prop :=
  Unmixed (· = true) k i op ∧
    ∀ n, op = .sbrk n → 0 ≤ n.toInt ∨ 0 < ((k.table.slot i).sz : ℤ)+n.toInt

theorem Supported.bounded {k : Kernel} {i : Fin NPROC} {op : Op} (h : Supported k i op) :
    Bounded k i op := ⟨h.1.1,h.2⟩

theorem allocLoop_runs (oldsz newsz n : ℕ) {a : ℕ} (ph : Phys) (d : PageDir) (hn : newsz ≤ 2^22)
    (ha : a%PGSIZE = 0) (hx : Extent d a) (hf : lack slots d+n ≤ ph.freelist.length) :
    ∃ ph' d', allocLoop oldsz newsz n a ph d = .ok (ph', d', newsz) ∧
      ph.freelist.length ≤ ph'.freelist.length+lack slots d+n ∧
      (∀ v < UPAGES, v*PGSIZE < a → d'.leaf (v*PGSIZE) = d.leaf (v*PGSIZE)) ∧
      ∀ v < UPAGES, a ≤ v*PGSIZE → v*PGSIZE < newsz → newsz ≤ a+n*PGSIZE →
        has (d'.leaf (v*PGSIZE)) PTE_U = true := by
  induction n generalizing a ph d with
  | zero => exact ⟨ph,d,rfl,by omega,fun _ _ _ => rfl,fun _ _ _ _ _ => by omega⟩
  | succ n ih =>
    rw [allocLoop]
    split
    · next hlt =>
      have hk : a < KERNBASE := by unfold KERNBASE; omega
      rcases kalloc_cases ph with ⟨h0,-⟩ | ⟨f,fs,hl,hka⟩
      · rw [h0, List.length_nil] at hf
        omega
      · rw [hl, List.length_cons] at hf
        have hp := hx.absent (page_lt hk) (by unfold PGSIZE at *; omega)
        rw [leaf_page] at hp
        obtain ⟨ph1,d1,h1,hfed,-,-,hleaf⟩ := mappages_fed
          (({ ph with freelist := fs } : Phys).fill f (fun _ => 0)) d (physAddr f)
          (PTE_W ||| PTE_U) ha (by unfold PGSIZE at *; omega) hp
          (by change lack slots d ≤ fs.length; omega)
        have hlen : ph1.freelist.length+lack slots d = fs.length+lack slots d1 := hfed.len
        rcases mappages_extent hx ha hk h1 with ⟨hc,-⟩ | ⟨-,hx1,hlow⟩
        · cases hc
        obtain ⟨ph2,d2,h2,hfree,hkeep,hU⟩ := ih (a := a+PGSIZE) (ph1.incRef f) d1
          (by unfold PGSIZE at *; omega) hx1 (by change _ ≤ ph1.freelist.length; omega)
        change ph1.freelist.length ≤ _ at hfree
        refine ⟨ph2,d2,?_,by rw [hl, List.length_cons]; omega,fun v hv hva => ?_,
          fun v hv h3 h4 h5 => ?_⟩
        · rw [hka]
          dsimp only
          rw [h1]
          exact h2
        · rw [hkeep v hv (by omega), hlow v hv hva]
        · by_cases hva : v = a/PGSIZE
          · rw [hkeep v hv (by unfold PGSIZE at *; omega), hleaf v hv, if_pos hva, entry_U]
            rfl
          · exact hU v hv (by unfold PGSIZE at *; omega) h4 (by unfold PGSIZE at *; omega)
    · exact ⟨ph,d,rfl,by omega,fun _ _ _ => rfl,fun _ _ _ _ _ => by omega⟩

theorem copyout_page (ph : Phys) (d : PageDir) (va : ℕ) {p : List UInt8} (hp : p ≠ [])
    (hlen : va%PGSIZE+p.length ≤ PGSIZE) (hP : has (d.leaf va) PTE_P = true)
    (hU : has (d.leaf va) PTE_U = true) :
    ∃ ph', copyout ph d va p = .ok (ph', true) ∧ ph'.freelist = ph.freelist := by
  have hva : PGROUNDDOWN va = va/PGSIZE*PGSIZE := by unfold PGROUNDDOWN PGSIZE; omega
  have hw : uva2ka d (PGROUNDDOWN va) = .ok (some (pteFrame (d.leaf va))) := by
    rw [hva, uva2ka, walk_page, walk_of_present hP]
    dsimp only
    rw [hP, hU]
    rfl
  have hoff : va-PGROUNDDOWN va = va%PGSIZE := by unfold PGROUNDDOWN PGSIZE; omega
  obtain ⟨n,hn⟩ := Nat.exists_eq_succ_of_ne_zero (by simpa using hp : p.length ≠ 0)
  have hall : p.drop (PGSIZE-va%PGSIZE) = [] := List.drop_eq_nil_of_le (by omega)
  rw [copyout, hn, copyoutLoop, if_neg hp]
  dsimp only
  rw [hw]
  dsimp only [bind, Except.bind]
  rw [hoff, hall]
  cases n with
  | zero => exact ⟨_,rfl,rfl⟩
  | succ n =>
    rw [copyoutLoop, if_pos rfl]
    exact ⟨_,rfl,rfl⟩

/-- An ELF header without program headers. -/
def emptyElf : List UInt8 := [0x7F, 0x45, 0x4C, 0x46]++List.replicate 48 0

theorem image_empty (ph : Phys) (hf : 134 ≤ ph.freelist.length) :
    ∃ ph' d, Exec.image ph emptyElf [] = .ok (ph', some (d, 2*PGSIZE)) ∧
      ph.freelist.length ≤ ph'.freelist.length+134 ∧ has (d.leaf 0) PTE_U = false := by
  obtain ⟨ph1,d1,h1,hl1,-⟩ := setupkvm_fed ph (by omega)
  have hx1 := fresh_extent (setupkvm_some h1)
  have hlack := lack_le d1
  obtain ⟨ph2,d2,h2,hl2,-,hU⟩ := allocLoop_runs 0 (2*PGSIZE) 3 ph1 d1
    (by decide) rfl hx1 (by omega)
  have halloc : allocuvm ph1 d1 0 (2*PGSIZE) = .ok (ph2, d2, 2*PGSIZE) := by
    rw [allocuvm, if_neg (by decide), if_neg (by decide)]
    exact h2
  rcases allocuvm_extent hx1 halloc with ⟨-,-,hx2⟩ | ⟨h0,-⟩
  · obtain ⟨hw0,hP0⟩ := hx2.walk (a := 0) (by decide) (by decide)
    have hclear : clearpteu d2 (2*PGSIZE-2*PGSIZE) = .ok (d2.setPte 0 (hideUser (d2.leaf 0))) := by
      rw [Nat.sub_self, clearpteu, hw0]
    -- the argument block is sixteen bytes at the top of the stack page
    have hpage : (d2.setPte 0 (hideUser (d2.leaf 0))).leaf (1*PGSIZE) = d2.leaf (1*PGSIZE) := by
      rw [setPte_leaf_page d2 0 1 _ _ (by decide) (by decide) hw0, if_neg (by decide)]
    have htop : ∀ e : PageDir, e.leaf 8176 = e.leaf (1*PGSIZE) := fun e => (leaf_page e 8176).symm
    obtain ⟨ph3,h3,hl3⟩ := copyout_page ph2
      (d2.setPte 0 (hideUser (d2.leaf 0))) 8176
      (p := ([0xffffffff, 0, (2*PGSIZE+2^32-(0+1)*4)%2^32]++[]++[0]).flatMap Exec.word)
      (by simp [Exec.word]) (by simp [Exec.word, PGSIZE])
      (by rw [htop, hpage]; exact hx2.present 1 (by decide) (by decide))
      (by rw [htop, hpage]; exact hU 1 (by decide) (by decide) (by decide) (by decide))
    have hargs : Exec.pushArgs ph2 (d2.setPte 0 (hideUser (d2.leaf 0))) (2*PGSIZE) [] =
        .ok (ph3, true) := h3
    refine ⟨ph3,d2.setPte 0 (hideUser (d2.leaf 0)),?_,by rw [hl3]; omega,?_⟩
    · rw [Exec.image, show Exec.readAll emptyElf 0 Exec.elfhdrSize = some emptyElf by decide]
      dsimp only
      rw [if_neg (by decide), h1]
      dsimp only [bind, Except.bind]
      rw [show Exec.field emptyElf 44 2 = 0 by decide, Exec.loadSegments]
      dsimp only
      rw [Exec.addStack, show PGROUNDUP 0%2^32 = 0 by decide,
        show (0+2*PGSIZE)%2^32 = 2*PGSIZE by decide, halloc]
      dsimp only [bind, Except.bind]
      rw [if_neg (by decide), hclear]
      dsimp only
      rw [hargs]
      rfl
    · rw [setPte_self (by decide) hw0, hideUser_U]
  · cases h0

end Xv6.Kern
