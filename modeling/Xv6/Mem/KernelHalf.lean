import Xv6.Mem.KernelMap

/-!
# The kernel half of every address space

`setupkvm` writes the same entries above `KERNBASE` into every directory, and none of
the functions that later change a directory writes there: each stores entries only
below `KERNBASE`, for frames that come from the free list or from another user entry.
The statement needs no counters, so it holds for every history of these functions.
-/

set_option autoImplicit false

namespace Xv6.KernelHalf
open Xv6.Mmu Xv6.Kalloc Xv6.Paging Xv6.Uvm Xv6.Halting Xv6.MapSpec Xv6.GrowSpec

section
variable {ph ph' : Phys} {d d' pgdir pgdir' : PageDir} {va : ℕ}

/-! ## The functions of `vm.c` -/

theorem walkpgdir_stock {p : Option Pte} (hs : Stock ph)
    (h : walkpgdir ph d va true = (ph', d', p)) : Stock ph' := by
  rcases walkpgdir_cases ph d va with ⟨p,-,he⟩ | ⟨-,-,he⟩ | ⟨f,fs,-,hl,he⟩ <;> rw [he] at h <;>
    cases h
  · exact hs
  · exact hs
  · exact (hs.kalloc hl).2

theorem mapLoop_stock {n a : ℕ} {pa perm : Pte} {r : Bool} (hs : Stock ph)
    (h : mapLoop n ph d a pa perm = .ok (ph', d', r)) : Stock ph' := by
  induction n generalizing a pa ph d with
  | zero =>
    cases h
    exact hs
  | succ n ih =>
    rcases mapLoop_ok h with ⟨-,hw⟩ | ⟨ph1,d1,p,hw,-,h⟩
    · exact walkpgdir_stock hs hw
    · exact ih (walkpgdir_stock hs hw) h

theorem deallocuvm_stock {oldsz newsz r : ℕ} (hs : Stock ph)
    (h : deallocuvm ph d oldsz newsz = .ok (ph', d', r)) : Stock ph' :=
  deallocuvm_keeps (P := fun ph _ => Stock ph) (fun _ _ _ h1 hs => hs.dropRef h1) hs h

theorem deallocuvm_space {oldsz newsz r : ℕ} (ho : oldsz ≤ KERNBASE) (hd : Space d)
    (h : deallocuvm ph d oldsz newsz = .ok (ph', d', r)) : Space d' := by
  apply deallocuvm_keeps (P := fun _ d => Space d) _ hd h
  intro a p ph ph1 e hlt hw _ _ he
  exact he.setPte (lt_of_lt_of_le hlt ho) hw fun hP => absurd hP (by decide)

theorem freevm_stock (hs : Stock ph) (h : freevm ph d = .ok ph') : Stock ph' := by
  rw [freevm, bind_ok] at h
  obtain ⟨⟨ph1,d1,r⟩,h1,h⟩ := h
  rw [bind_ok] at h
  obtain ⟨ph2,h2,h3⟩ := h
  exact ((deallocuvm_stock hs h1).kfrees h2).kfree h3

theorem abandon_stock {r : Option PageDir} (hs : Stock ph) (h : abandon ph d = .ok (ph', r)) :
    Stock ph' ∧ r = none := by
  obtain ⟨rfl,h1⟩ := abandon_cases h
  exact ⟨freevm_stock hs h1,rfl⟩

theorem kmapLoop_stock {ks : List Kmap} {r : Option PageDir} (hs : Stock ph)
    (h : kmapLoop ks ph d = .ok (ph', r)) : Stock ph' := by
  induction ks generalizing ph d with
  | nil =>
    cases h
    exact hs
  | cons k ks ih =>
    obtain ⟨ph1,d1,done,h1,⟨-,h2⟩ | ⟨-,-,h2⟩⟩ := kmapLoop_cases h
    · exact ih (mapLoop_stock hs h1) h2
    · exact freevm_stock (mapLoop_stock hs h1) h2

theorem setupkvm_stock {r : Option PageDir} (hs : Stock ph) (h : setupkvm ph = .ok (ph', r)) :
    Stock ph' := by
  rcases setupkvm_cases h with ⟨-,rfl,-⟩ | ⟨f,fs,hl,h⟩
  · exact hs
  · exact kmapLoop_stock (hs.kalloc hl).2 h

theorem entry_inRange {f : ℕ} {perm : Pte} (hf : InRange f) (hp : LowBits perm) :
    InRange (pteFrame (physAddr f ||| perm ||| PTE_P)) := by
  rwa [pteFrame_entry f (inRange_lt hf) perm hp]

theorem allocLoop_space {oldsz newsz n a r : ℕ} (hn : newsz ≤ KERNBASE) (ha : a%PGSIZE = 0)
    (hs : Stock ph) (hd : Space d) (h : allocLoop oldsz newsz n a ph d = .ok (ph', d', r)) :
    Stock ph' ∧ Space d' := by
  induction n generalizing a ph d with
  | zero =>
    cases h
    exact ⟨hs,hd⟩
  | succ n ih =>
    rcases allocLoop_cases h with ⟨-,rfl,rfl,-⟩ | ⟨-,-,s,h1⟩ | ⟨f,fs,ph1,d1,done,hlt,hl,h1,h2⟩
    · exact ⟨hs,hd⟩
    · exact ⟨deallocuvm_stock hs h1,deallocuvm_space hn hd h1⟩
    · obtain ⟨hf,hs0⟩ := hs.kalloc hl
      have hs0' : Stock (({ ph with freelist := fs } : Phys).fill f (fun _ => 0)) := hs0
      obtain ⟨hs1,hd1⟩ := mappages_space hs0' hd ha (by omega) (entry_inRange hf userPerm_low) h1
      have hs1' : Stock (ph1.incRef f) := hs1
      rcases h2 with ⟨-,h2⟩ | ⟨-,-,ph2,s,h2,h3⟩
      · exact ih (by unfold PGSIZE at *; omega) hs1' hd1 h2
      · exact ⟨(deallocuvm_stock hs1 h2).kfree h3,deallocuvm_space hn hd1 h2⟩

theorem allocuvm_space {oldsz newsz r : ℕ} (hs : Stock ph) (hd : Space d)
    (h : allocuvm ph d oldsz newsz = .ok (ph', d', r)) : Stock ph' ∧ Space d' := by
  rcases allocuvm_cases h with ⟨rfl,rfl,-⟩ | ⟨hk,-,h⟩
  · exact ⟨hs,hd⟩
  · exact allocLoop_space hk.le (by unfold PGROUNDUP PGSIZE; omega) hs hd h

theorem inituvm_space {init : List UInt8} (hs : Stock ph) (hd : Space d)
    (h : inituvm ph d init = .ok (ph', d')) : Stock ph' ∧ Space d' := by
  rw [inituvm] at h
  split at h
  · cases h
  · rcases kalloc_cases ph with ⟨-,hka⟩ | ⟨f,fs,hl,hka⟩ <;> rw [hka] at h
    · cases h
    · dsimp only at h
      rw [bind_ok] at h
      obtain ⟨⟨ph1,d1,r⟩,h1,h2⟩ := h
      cases h2
      obtain ⟨hf,hs0⟩ := hs.kalloc hl
      have hs0' : Stock (({ ph with freelist := fs } : Phys).fill f (fun _ => 0)) := hs0
      obtain ⟨hs1,hd1⟩ := mappages_space hs0' hd rfl (by decide) (entry_inRange hf userPerm_low) h1
      exact ⟨hs1,hd1⟩

theorem copyLoop_space {n i : ℕ} {r : Option PageDir} (ha : i%PGSIZE = 0)
    (hn : i+n*PGSIZE ≤ KERNBASE) (hs : Stock ph) (hd : Space d)
    (h : copyLoop pgdir n i ph d = .ok (ph', r)) : Stock ph' ∧ ∀ c ∈ r, Space c := by
  induction n generalizing i ph d with
  | zero =>
    cases h
    exact ⟨hs,fun c hc => by cases hc; exact hd⟩
  | succ n ih =>
    have hi : i < KERNBASE := by unfold PGSIZE at hn; omega
    have hgone : ∀ {ph1 : Phys} {d1 : PageDir}, Stock ph1 → abandon ph1 d1 = .ok (ph', r) →
        Stock ph' ∧ ∀ c ∈ r, Space c := by
      intro ph1 d1 hs1 h1
      obtain ⟨hs2,rfl⟩ := abandon_stock hs1 h1
      exact ⟨hs2,fun c hc => absurd hc (Option.not_mem_none c)⟩
    obtain ⟨p,-,-,⟨-,h⟩ | ⟨f,fs,ph1,d1,done,hl,h1,h2⟩⟩ := copyLoop_cases h
    · exact hgone hs h
    · obtain ⟨hf,hs0⟩ := hs.kalloc hl
      have hs0' : Stock (({ ph with freelist := fs } : Phys).fill f (ph.mem (pteFrame p))) := hs0
      obtain ⟨hs1,hd1⟩ := mappages_space hs0' hd ha hi (entry_inRange hf (lowBits_flags p)) h1
      rcases h2 with ⟨-,h2⟩ | ⟨-,h2⟩
      · exact ih (by unfold PGSIZE at *; omega) (by unfold PGSIZE at *; omega) hs1 hd1 h2
      · exact hgone hs1 h2

theorem cowLoop_space {n i : ℕ} {r : Option PageDir} (ha : i%PGSIZE = 0)
    (hn : i+n*PGSIZE ≤ KERNBASE) (hs : Stock ph) (hp : Space pgdir) (hd : Space d)
    (h : cowLoop n i ph pgdir d = .ok (ph', pgdir', r)) :
    Stock ph' ∧ Space pgdir' ∧ ∀ c ∈ r, Space c := by
  induction n generalizing i ph pgdir d with
  | zero =>
    cases h
    exact ⟨hs,hp,fun c hc => by cases hc; exact hd⟩
  | succ n ih =>
    have hi : i < KERNBASE := by unfold PGSIZE at hn; omega
    obtain ⟨p,ph1,d1,done,hw,hP,h1,h2⟩ := cowLoop_cases h
    have hf := hp.walk hi hw hP
    have hf1 : InRange (pteFrame (pteAddr (protect p) ||| pteFlags (protect p) ||| PTE_P)) := by
      rwa [addr_flags_entry _ (by rwa [protect_P]), protect_frame]
    obtain ⟨hs1,hd1⟩ := mappages_space hs hd ha hi hf1 h1
    rcases h2 with ⟨-,h2⟩ | ⟨-,rfl,h2⟩
    · have hp2 : Space (pgdir.setPte i (markCow (protect p))) :=
        hp.setPte hi hw fun _ => by rw [markCow_frame, protect_frame]; exact hf
      have hs2 : Stock (ph1.incRef (pteFrame p)) := hs1
      exact ih (by unfold PGSIZE at *; omega) (by unfold PGSIZE at *; omega) hs2 hp2 hd1 h2
    · obtain ⟨hs2,rfl⟩ := abandon_stock hs1 h2
      have hp1 : Space (pgdir.setPte i (protect p)) :=
        hp.setPte hi hw fun _ => by rw [protect_frame]; exact hf
      exact ⟨hs2,hp1,fun c hc => absurd hc (Option.not_mem_none c)⟩

theorem copyuvm_space {sz : ℕ} {r : Option PageDir} (hsz : sz ≤ KERNBASE) (hs : Stock ph)
    (h : copyuvm ph pgdir sz = .ok (ph', r)) : Stock ph' ∧ ∀ c ∈ r, Space c := by
  rw [copyuvm, bind_ok] at h
  obtain ⟨⟨ph1,o⟩,h1,h⟩ := h
  have hs1 := setupkvm_stock hs h1
  cases o with
  | none =>
    cases h
    exact ⟨hs1,fun c hc => absurd hc (Option.not_mem_none c)⟩
  | some d => exact copyLoop_space rfl (CopySpec.pageCount_le hsz) hs1 (setupkvm_space h1) h

theorem copyuvmcow_space {sz : ℕ} {r : Option PageDir} (hsz : sz ≤ KERNBASE) (hs : Stock ph)
    (hp : Space pgdir) (h : copyuvmcow ph pgdir sz = .ok (ph', pgdir', r)) :
    Stock ph' ∧ Space pgdir' ∧ ∀ c ∈ r, Space c := by
  rw [copyuvmcow, bind_ok] at h
  obtain ⟨⟨ph1,o⟩,h1,h⟩ := h
  have hs1 := setupkvm_stock hs h1
  cases o with
  | none =>
    cases h
    exact ⟨hs1,hp,fun c hc => absurd hc (Option.not_mem_none c)⟩
  | some d => exact cowLoop_space rfl (CopySpec.pageCount_le hsz) hs1 hp (setupkvm_space h1) h

theorem clearpteu_space {uva : ℕ} (hu : uva < KERNBASE) (hd : Space d)
    (h : clearpteu d uva = .ok d') : Space d' := by
  rw [clearpteu] at h
  split at h
  · cases h
  · next p hw =>
    cases h
    refine hd.setPte hu hw fun hP => ?_
    rw [hideUser_P] at hP
    rw [hideUser_frame]
    exact hd.walk hu hw hP

theorem pagefault_space {kill : Bool} (hs : Stock ph) (hd : Space d)
    (h : pagefault ph d va = .ok (ph', d', kill)) : Stock ph' ∧ Space d' := by
  rcases pagefault_cases h with ⟨-,rfl,rfl⟩ | ⟨p,-,hk,hw,hP,-,-,hc⟩
  · exact ⟨hs,hd⟩
  · rcases hc with ⟨-,rfl,rfl⟩ | ⟨f,fs,-,hl,rfl,rfl⟩
    · refine ⟨hs,hd.setPte hk hw fun _ => ?_⟩
      rw [reclaim_frame]
      exact hd.walk hk hw hP
    · obtain ⟨hf,hs0⟩ := hs.kalloc hl
      exact ⟨hs0,hd.setPte hk hw fun _ => entry_inRange hf userPerm_low⟩

end

/-! ## Histories -/

/-- The allocator and the directories that are in use. -/
structure Vm where
  ph : Phys
  dirs : List PageDir

/-- The calls on the directories. The sizes that callers pass are those of address
spaces, at most `KERNBASE`, except the new size of `allocuvm` and of `deallocuvm`; the
guard page of `clearpteu` lies below such a size, and `pagefault` is called for any
address. `kalloc`, `kfree` and `stores` are what the rest of the kernel and the processes
do to the memory. -/
inductive Step (vm : Vm) : Vm → Prop where
  | setupkvm {ph : Phys} {r : Option PageDir} (h : setupkvm vm.ph = .ok (ph, r)) :
      Step vm ⟨ph,r.toList++vm.dirs⟩
  | inituvm {i : ℕ} {d d' : PageDir} {init : List UInt8} {ph : Phys} (hd : vm.dirs[i]? = some d)
      (h : inituvm vm.ph d init = .ok (ph, d')) : Step vm ⟨ph,vm.dirs.set i d'⟩
  | allocuvm {i oldsz newsz r : ℕ} {d d' : PageDir} {ph : Phys} (hd : vm.dirs[i]? = some d)
      (h : allocuvm vm.ph d oldsz newsz = .ok (ph, d', r)) : Step vm ⟨ph,vm.dirs.set i d'⟩
  | deallocuvm {i oldsz newsz r : ℕ} {d d' : PageDir} {ph : Phys} (hd : vm.dirs[i]? = some d)
      (ho : oldsz ≤ KERNBASE) (h : deallocuvm vm.ph d oldsz newsz = .ok (ph, d', r)) :
      Step vm ⟨ph,vm.dirs.set i d'⟩
  | copyuvm {i sz : ℕ} {d : PageDir} {r : Option PageDir} {ph : Phys} (hd : vm.dirs[i]? = some d)
      (hsz : sz ≤ KERNBASE) (h : copyuvm vm.ph d sz = .ok (ph, r)) : Step vm ⟨ph,r.toList++vm.dirs⟩
  | copyuvmcow {i sz : ℕ} {d d' : PageDir} {r : Option PageDir} {ph : Phys}
      (hd : vm.dirs[i]? = some d) (hsz : sz ≤ KERNBASE)
      (h : copyuvmcow vm.ph d sz = .ok (ph, d', r)) : Step vm ⟨ph,r.toList++vm.dirs.set i d'⟩
  | clearpteu {i uva : ℕ} {d d' : PageDir} (hd : vm.dirs[i]? = some d) (hu : uva < KERNBASE)
      (h : clearpteu d uva = .ok d') : Step vm ⟨vm.ph,vm.dirs.set i d'⟩
  | pagefault {i va : ℕ} {d d' : PageDir} {kill : Bool} {ph : Phys} (hd : vm.dirs[i]? = some d)
      (h : pagefault vm.ph d va = .ok (ph, d', kill)) : Step vm ⟨ph,vm.dirs.set i d'⟩
  | freevm {i : ℕ} {d : PageDir} {ph : Phys} (hd : vm.dirs[i]? = some d)
      (h : freevm vm.ph d = .ok ph) : Step vm ⟨ph,vm.dirs.eraseIdx i⟩
  | kalloc : Step vm ⟨(kalloc vm.ph).1,vm.dirs⟩
  | kfree {f : ℕ} {ph : Phys} (h : kfree vm.ph f = .ok ph) : Step vm ⟨ph,vm.dirs⟩
  | stores {ph : Phys} (h : ph.freelist = vm.ph.freelist) : Step vm ⟨ph,vm.dirs⟩

inductive Reach (vm₀ : Vm) : Vm → Prop where
  | start : Reach vm₀ vm₀
  | step {vm vm' : Vm} (h : Reach vm₀ vm) (hs : Step vm vm') : Reach vm₀ vm'

variable {vm vm' vm₀ : Vm}

structure Fixed (vm : Vm) : Prop where
  stock : Stock vm.ph
  space : ∀ d ∈ vm.dirs, Space d

theorem Fixed.put {ph : Phys} {i : ℕ} {d : PageDir} (h : Fixed vm) (hd : Stock ph ∧ Space d) :
    Fixed ⟨ph,vm.dirs.set i d⟩ := by
  refine ⟨hd.1,fun c hc => ?_⟩
  rcases List.mem_or_eq_of_mem_set hc with hc | rfl
  · exact h.space c hc
  · exact hd.2

theorem Fixed.add {ph : Phys} {ds : List PageDir} {r : Option PageDir} (hs : Stock ph)
    (hds : ∀ d ∈ ds, Space d) (hr : ∀ c ∈ r, Space c) : Fixed ⟨ph,r.toList++ds⟩ := by
  refine ⟨hs,fun c hc => ?_⟩
  rcases List.mem_append.mp hc with hc | hc
  · exact hr c (Option.mem_toList.mp hc)
  · exact hds c hc

theorem Fixed.step (h : Fixed vm) (hs : Step vm vm') : Fixed vm' := by
  have hat : ∀ {i : ℕ} {d : PageDir}, vm.dirs[i]? = some d → Space d :=
    fun hd => h.space _ (List.mem_of_getElem? hd)
  cases hs with
  | setupkvm hs =>
    refine Fixed.add (setupkvm_stock h.stock hs) h.space ?_
    rintro c rfl
    exact setupkvm_space hs
  | inituvm hd hs => exact h.put (inituvm_space h.stock (hat hd) hs)
  | allocuvm hd hs => exact h.put (allocuvm_space h.stock (hat hd) hs)
  | deallocuvm hd ho hs =>
    exact h.put ⟨deallocuvm_stock h.stock hs,deallocuvm_space ho (hat hd) hs⟩
  | copyuvm hd hsz hs =>
    obtain ⟨h1,h2⟩ := copyuvm_space hsz h.stock hs
    exact Fixed.add h1 h.space h2
  | copyuvmcow hd hsz hs =>
    obtain ⟨h1,h2,h3⟩ := copyuvmcow_space hsz h.stock (hat hd) hs
    exact Fixed.add h1 (h.put ⟨h1,h2⟩).space h3
  | clearpteu hd hu hs => exact h.put ⟨h.stock,clearpteu_space hu (hat hd) hs⟩
  | pagefault hd hs => exact h.put (pagefault_space h.stock (hat hd) hs)
  | freevm hd hs =>
    exact ⟨freevm_stock h.stock hs,fun c hc => h.space c (List.mem_of_mem_eraseIdx hc)⟩
  | kalloc =>
    refine ⟨?_,h.space⟩
    rcases kalloc_cases vm.ph with ⟨-,hk⟩ | ⟨f,fs,hl,hk⟩
    · rw [hk]
      exact h.stock
    · rw [hk]
      exact (h.stock.kalloc hl).2
  | kfree hs => exact ⟨h.stock.kfree hs,h.space⟩
  | stores hs =>
    refine ⟨?_,h.space⟩
    intro f hf
    exact h.stock f (hs ▸ hf)

theorem Reach.fixed (h₀ : Stock vm₀.ph) (hd₀ : vm₀.dirs = []) (h : Reach vm₀ vm) : Fixed vm := by
  induction h with
  | start => exact ⟨h₀,by rw [hd₀]; exact fun d hd => absurd hd List.not_mem_nil⟩
  | step _ hs ih => exact ih.step hs

def unused : Vm := ⟨⟨List.range' 1000 80,fun _ => 0,fun _ _ => 0⟩,[]⟩

end Xv6.KernelHalf
