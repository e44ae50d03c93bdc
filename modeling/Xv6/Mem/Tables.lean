import Xv6.Mem.MapSpec

/-!
# Page tables in memory

A page directory is a frame of words whose present entries point to frames of words. Here
`walkpgdir` returns a pointer and `mappages` stores through it, until the address equals the
last page. As long as the tables of a directory are different frames, and the free ones are
none of them, this memory behaves as the directories of the other modules, and so as one flat
map from addresses to entries.
-/

set_option autoImplicit false

namespace Xv6.Tables
open Xv6.Mmu Xv6.Kalloc Xv6.Paging Xv6.MapSpec

/-- The allocator and the words of the frames. -/
structure Raw where
  ph : Phys
  word : ℕ → ℕ → Pte

def Raw.store (m : Raw) (f i : ℕ) (p : Pte) : Raw :=
  { m with word := Function.update m.word f (Function.update (m.word f) i p) }

/-- `memset(p, 0, PGSIZE)`. -/
def Raw.clear (m : Raw) (f : ℕ) : Raw :=
  { m with word := Function.update m.word f fun _ => 0#32 }

/-- `pgdir[i] & PTE_P`. -/
def Raw.present (m : Raw) (pgdir i : ℕ) : Bool := has (m.word pgdir i) PTE_P

/-- The frame of `PTE_ADDR(pgdir[i])`. -/
def Raw.table (m : Raw) (pgdir i : ℕ) : ℕ := pteFrame (m.word pgdir i)

/-- The entry of the directory for the new page table `f`. -/
def pdeOf (f : ℕ) : Pte := physAddr f ||| PTE_P ||| PTE_W ||| PTE_U ||| PTE_COW

/-- `walkpgdir`: the frame and the index of the entry. -/
def walkpgdir (m : Raw) (pgdir va : ℕ) (alloc : Bool) : Raw × Option (ℕ × ℕ) :=
  if m.present pgdir (PDX va) then (m, some (m.table pgdir (PDX va), PTX va))
  else if alloc then
    match kalloc m.ph with
    | (ph, none) => ({ m with ph := ph }, none)
    | (ph, some f) =>
      ((Raw.clear { m with ph := ph } f).store pgdir (PDX va)
        (pdeOf f), some (f, PTX va))
  else (m, none)

/-- The loop of `mappages` for a number of passes. -/
def mapLoop (pgdir last : ℕ) (perm : Pte) :
    ℕ → Raw → ℕ → Pte → Option (Except Halt (Raw × Bool))
  | 0, _, _, _ => none
  | n+1, m, a, pa =>
    match walkpgdir m pgdir a true with
    | (m, none) => some (.ok (m, false))
    | (m, some pte) =>
      if has (m.word pte.1 pte.2) PTE_P then some (.error (.panic "remap"))
      else if a = last then some (.ok (m.store pte.1 pte.2 (pa ||| perm ||| PTE_P), true))
      else mapLoop pgdir last perm n (m.store pte.1 pte.2 (pa ||| perm ||| PTE_P))
        ((a+PGSIZE)%2^32) (pa+BitVec.ofNat 32 PGSIZE)

def mappages (n : ℕ) (m : Raw) (pgdir va size : ℕ) (pa perm : Pte) :
    Option (Except Halt (Raw × Bool)) :=
  mapLoop pgdir (PGROUNDDOWN ((va+size+2^32-1)%2^32)) perm n m (PGROUNDDOWN (va%2^32)) pa

def Raw.leaf (m : Raw) (pgdir va : ℕ) : Pte :=
  if m.present pgdir (PDX va) then m.word (m.table pgdir (PDX va)) (PTX va) else 0#32

def Raw.dir (m : Raw) (pgdir : ℕ) : PageDir where
  frame := pgdir
  pde i := if i < NPDENTRIES ∧ m.present pgdir i = true then
      some ⟨m.table pgdir i, m.word (m.table pgdir i)⟩ else none

/-- The directory, its page tables and the free frames are different frames. -/
structure Apart (m : Raw) (pgdir : ℕ) : Prop where
  tables : ∀ i < NPDENTRIES, ∀ j < NPDENTRIES, m.present pgdir i = true → m.present pgdir j = true →
    m.table pgdir i = m.table pgdir j → i = j
  root : ∀ i < NPDENTRIES, m.present pgdir i = true → m.table pgdir i ≠ pgdir
  unused : ∀ f ∈ m.ph.freelist, f < 2^20 ∧ f ≠ pgdir ∧
    ∀ i < NPDENTRIES, m.present pgdir i = true → m.table pgdir i ≠ f
  nodup : m.ph.freelist.Nodup

variable {m m' : Raw} {pgdir : ℕ}

theorem dir_walk (m : Raw) (pgdir va : ℕ) : (m.dir pgdir).walk va =
    if m.present pgdir (PDX va) then some (m.word (m.table pgdir (PDX va)) (PTX va)) else none := by
  have hlt := PDX_lt va
  by_cases hp : m.present pgdir (PDX va) = true
  · rw [if_pos hp, PageDir.walk, Raw.dir]
    dsimp only
    rw [if_pos ⟨hlt,hp⟩]
    rfl
  · rw [if_neg hp, PageDir.walk, Raw.dir]
    dsimp only
    rw [if_neg (fun h => hp h.2)]
    rfl

theorem dir_leaf (m : Raw) (pgdir va : ℕ) : (m.dir pgdir).leaf va = m.leaf pgdir va := by
  rw [PageDir.leaf, dir_walk, Raw.leaf]
  split <;> rfl

theorem store_word (m : Raw) (f i : ℕ) (p : Pte) (g : ℕ) (h : g ≠ f) :
    (m.store f i p).word g = m.word g := Function.update_of_ne h ..

theorem Apart.store (h : Apart m pgdir) {va : ℕ} (hp : m.present pgdir (PDX va) = true) (p : Pte) :
    Apart (m.store (m.table pgdir (PDX va)) (PTX va) p) pgdir ∧
    (m.store (m.table pgdir (PDX va)) (PTX va) p).dir pgdir = (m.dir pgdir).setPte va p := by
  have hroot : (m.store (m.table pgdir (PDX va)) (PTX va) p).word pgdir = m.word pgdir :=
    store_word m _ _ p pgdir (h.root _ (PDX_lt va) hp).symm
  have hpres : ∀ i, (m.store (m.table pgdir (PDX va)) (PTX va) p).present pgdir i =
      m.present pgdir i := fun i => by rw [Raw.present, hroot, Raw.present]
  have htab : ∀ i, (m.store (m.table pgdir (PDX va)) (PTX va) p).table pgdir i =
      m.table pgdir i := fun i => by rw [Raw.table, hroot, Raw.table]
  refine ⟨⟨?_,?_,?_,h.nodup⟩,?_⟩
  · simp only [hpres, htab]
    exact h.tables
  · simp only [hpres, htab]
    exact h.root
  · simp only [hpres, htab]
    exact h.unused
  · rw [Raw.dir, PageDir.setPte, Raw.dir, PageDir.mk.injEq]
    refine ⟨rfl,?_⟩
    funext i
    simp only [hpres, htab]
    by_cases hi : i < NPDENTRIES ∧ m.present pgdir i = true
    · rw [if_pos hi, if_pos hi]
      by_cases he : i = PDX va
      · subst he
        rw [if_pos rfl, Option.map_some]
        congr 2
        exact Function.update_self ..
      · have hne : m.table pgdir i ≠ m.table pgdir (PDX va) := by
          intro heq
          exact he (h.tables i hi.1 _ (PDX_lt va) hi.2 hp heq)
        rw [if_neg he, store_word m _ _ p _ hne]
    · rw [if_neg hi, if_neg hi]
      split <;> rfl

theorem pdeOf_present (f : ℕ) : has (pdeOf f) PTE_P = true := by
  rw [pdeOf, has_P]
  simp only [BitVec.getLsbD_or, show PTE_P.getLsbD 0 = true from rfl, Bool.or_true, Bool.true_or]

theorem pdeOf_frame {f : ℕ} (hf : f < 2^20) : pteFrame (pdeOf f) = f := by
  rw [pdeOf, pteFrame_or _ _ (lowBits_of_lt _ (by decide)),
    pteFrame_or _ _ (lowBits_of_lt _ (by decide)), pteFrame_or _ _ (lowBits_of_lt _ (by decide)),
    pteFrame_or _ _ (lowBits_of_lt _ (by decide)), pteFrame_physAddr f hf]

/-- A new page table for `va`. -/
def Raw.grow (m : Raw) (pgdir va f : ℕ) (fs : List ℕ) : Raw :=
  (Raw.clear { m with ph := { m.ph with freelist := fs } } f).store pgdir (PDX va) (pdeOf f)

section
variable {va f : ℕ} {fs : List ℕ}

theorem grow_new (hf : f ≠ pgdir) : (m.grow pgdir va f fs).word f = fun _ => 0#32 := by
  rw [Raw.grow, store_word _ _ _ _ f hf]
  exact Function.update_self ..

theorem grow_other {g : ℕ} (hg : g ≠ pgdir) (hgf : g ≠ f) :
    (m.grow pgdir va f fs).word g = m.word g := by
  rw [Raw.grow, store_word _ _ _ _ g hg]
  exact Function.update_of_ne hgf ..

theorem grow_root (hf : f ≠ pgdir) :
    (m.grow pgdir va f fs).word pgdir = Function.update (m.word pgdir) (PDX va) (pdeOf f) := by
  rw [Raw.grow, Raw.store]
  dsimp only
  rw [Function.update_self]
  congr 1
  exact Function.update_of_ne hf.symm ..

theorem grow_slot (m : Raw) (va : ℕ) (fs : List ℕ) (hf : f ≠ pgdir) (hf20 : f < 2^20) :
    (m.grow pgdir va f fs).present pgdir (PDX va) = true ∧
    (m.grow pgdir va f fs).table pgdir (PDX va) = f := by
  rw [Raw.present, Raw.table, grow_root hf, Function.update_self]
  exact ⟨pdeOf_present f,pdeOf_frame hf20⟩

theorem grow_slots (m : Raw) (va : ℕ) (fs : List ℕ) (hf : f ≠ pgdir) {i : ℕ} (hi : i ≠ PDX va) :
    (m.grow pgdir va f fs).present pgdir i = m.present pgdir i ∧
    (m.grow pgdir va f fs).table pgdir i = m.table pgdir i := by
  rw [Raw.present, Raw.table, grow_root hf, Function.update_of_ne hi]
  exact ⟨rfl,rfl⟩

theorem grow_present (m : Raw) (va : ℕ) (fs : List ℕ) (hf : f ≠ pgdir) (hf20 : f < 2^20) {i : ℕ}
    (hp : (m.grow pgdir va f fs).present pgdir i = true) :
    i = PDX va ∧ (m.grow pgdir va f fs).table pgdir i = f ∨
      m.present pgdir i = true ∧ (m.grow pgdir va f fs).table pgdir i = m.table pgdir i := by
  by_cases hi : i = PDX va
  · subst hi
    exact Or.inl ⟨rfl,(grow_slot m va fs hf hf20).2⟩
  · obtain ⟨hpres,htab⟩ := grow_slots m va fs hf hi
    exact Or.inr ⟨hpres ▸ hp,htab⟩

theorem Apart.grow (h : Apart m pgdir) (va : ℕ) (hl : m.ph.freelist = f::fs) :
    Apart (m.grow pgdir va f fs) pgdir ∧
    (m.grow pgdir va f fs).dir pgdir = (m.dir pgdir).addTable (PDX va) f := by
  obtain ⟨hf20,hf,huse⟩ := h.unused f (by rw [hl]; exact List.mem_cons_self)
  have hnodup := h.nodup
  rw [hl] at hnodup
  obtain ⟨hnew,hfs⟩ := List.nodup_cons.mp hnodup
  refine ⟨⟨?_,?_,?_,hfs⟩,?_⟩
  · intro i hi j hj hpi hpj he
    rcases grow_present m va fs hf hf20 hpi with ⟨hiv,hti⟩ | ⟨hpi,hti⟩ <;>
      rcases grow_present m va fs hf hf20 hpj with ⟨hjv,htj⟩ | ⟨hpj,htj⟩ <;> rw [hti, htj] at he
    · rw [hiv, hjv]
    · exact absurd he.symm (huse j hj hpj)
    · exact absurd he (huse i hi hpi)
    · exact h.tables i hi j hj hpi hpj he
  · intro i hi hpi
    rcases grow_present m va fs hf hf20 hpi with ⟨-,ht⟩ | ⟨hpi,ht⟩ <;> rw [ht]
    · exact hf
    · exact h.root i hi hpi
  · intro g hg
    obtain ⟨hg20,hgr,hgu⟩ := h.unused g (by rw [hl]; exact List.mem_cons_of_mem f hg)
    refine ⟨hg20,hgr,?_⟩
    intro i hi hpi
    rcases grow_present m va fs hf hf20 hpi with ⟨-,ht⟩ | ⟨hpi,ht⟩ <;> rw [ht]
    · rintro rfl
      exact hnew hg
    · exact hgu i hi hpi
  · rw [Raw.dir, PageDir.addTable, Raw.dir, PageDir.mk.injEq]
    refine ⟨rfl,?_⟩
    funext i
    dsimp only
    by_cases hiv : i = PDX va
    · obtain ⟨hpres,htab⟩ := grow_slot m va fs hf hf20
      rw [hiv, if_pos ⟨PDX_lt va,hpres⟩, htab, grow_new hf, Function.update_self]
    · obtain ⟨hpres,htab⟩ := grow_slots m va fs hf hiv
      rw [Function.update_of_ne hiv, hpres, htab]
      by_cases hi : i < NPDENTRIES ∧ m.present pgdir i = true
      · rw [if_pos hi, if_pos hi, grow_other (h.root i hi.1 hi.2) (huse i hi.1 hi.2)]
      · rw [if_neg hi, if_neg hi]

end

/-- The walk in memory is the walk in the directory, and it returns the entry in the table of
the address. -/
theorem Apart.walkpgdir (h : Apart m pgdir) (va : ℕ) (alloc : Bool) {o : Option (ℕ × ℕ)}
    (hw : Tables.walkpgdir m pgdir va alloc = (m',o)) :
    Apart m' pgdir ∧ Paging.walkpgdir m.ph (m.dir pgdir) va alloc =
      (m'.ph, m'.dir pgdir, o.map fun x => m'.word x.1 x.2) ∧
    ∀ x, o = some x → m'.present pgdir (PDX va) = true ∧ x = (m'.table pgdir (PDX va), PTX va) := by
  unfold Tables.walkpgdir at hw
  unfold Paging.walkpgdir
  rw [dir_walk]
  by_cases hp : m.present pgdir (PDX va) = true
  · rw [if_pos hp]
    rw [if_pos hp] at hw
    cases hw
    exact ⟨h,rfl,fun x hx => ⟨hp,by cases hx; rfl⟩⟩
  · rw [if_neg hp]
    rw [if_neg hp] at hw
    cases alloc with
    | false =>
      cases hw
      exact ⟨h,rfl,by rintro x ⟨⟩⟩
    | true =>
      rw [if_pos rfl] at hw ⊢
      rcases kalloc_cases m.ph with ⟨-,hk⟩ | ⟨f,fs,hl,hk⟩
      · rw [hk] at hw ⊢
        cases hw
        exact ⟨h,rfl,by rintro x ⟨⟩⟩
      · rw [hk] at hw ⊢
        cases hw
        obtain ⟨hf20,hf,-⟩ := h.unused f (by rw [hl]; exact List.mem_cons_self)
        obtain ⟨ha,hd⟩ := h.grow va hl
        obtain ⟨hpres,htab⟩ := grow_slot m va fs hf hf20
        refine ⟨ha,?_,?_⟩
        · change _ = (_, (m.grow pgdir va f fs).dir pgdir,
            some ((m.grow pgdir va f fs).word f (PTX va)))
          rw [hd, grow_new hf]
          rfl
        · rintro x ⟨⟩
          exact ⟨hpres,Prod.ext htab.symm rfl⟩

theorem Apart.mapLoop_pass (h : Apart m pgdir) (n a last : ℕ) (pa perm : Pte) :
    (∃ e, mapLoop pgdir last perm (n+1) m a pa = some (.error e) ∧
      ∀ k, Paging.mapLoop (k+1) m.ph (m.dir pgdir) a pa perm = .error e) ∨
    (∃ m', mapLoop pgdir last perm (n+1) m a pa = some (.ok (m', false)) ∧ Apart m' pgdir ∧
      ∀ k, Paging.mapLoop (k+1) m.ph (m.dir pgdir) a pa perm = .ok (m'.ph, m'.dir pgdir, false)) ∨
    ∃ m', Apart m' pgdir ∧ mapLoop pgdir last perm (n+1) m a pa =
        (if a = last then some (.ok (m', true))
        else mapLoop pgdir last perm n m' ((a+PGSIZE)%2^32) (pa+BitVec.ofNat 32 PGSIZE)) ∧
      ∀ k, Paging.mapLoop (k+1) m.ph (m.dir pgdir) a pa perm = Paging.mapLoop k m'.ph (m'.dir pgdir)
        ((a+PGSIZE)%2^32) (pa+BitVec.ofNat 32 PGSIZE) perm := by
  simp only [mapLoop, Paging.mapLoop]
  rcases hw : Tables.walkpgdir m pgdir a true with ⟨m1,o⟩
  obtain ⟨h1,hd,hx⟩ := h.walkpgdir a true hw
  rw [hd]
  cases o with
  | none => exact Or.inr (Or.inl ⟨m1,rfl,h1,fun _ => rfl⟩)
  | some x =>
    obtain ⟨hp,rfl⟩ := hx x rfl
    dsimp only [Option.map_some]
    by_cases hP : has (m1.word (m1.table pgdir (PDX a)) (PTX a)) PTE_P = true
    · exact Or.inl ⟨_,if_pos hP,fun _ => if_pos hP⟩
    · obtain ⟨h2,hd2⟩ := h1.store hp (pa ||| perm ||| PTE_P)
      refine Or.inr (Or.inr ⟨_,h2,if_neg hP,?_⟩)
      intro k
      rw [if_neg hP, hd2]
      rfl

/-- The loop in memory is the loop in the directory: it stops at the last page, after as many
passes as there are pages. -/
theorem Apart.mapLoop (k : ℕ) : ∀ {m : Raw} {n : ℕ} (a : ℕ) (pa perm : Pte), Apart m pgdir →
    a+k*PGSIZE < 2^32 → k < n →
    (∃ e, Tables.mapLoop pgdir (a+k*PGSIZE) perm n m a pa = some (.error e) ∧
      Paging.mapLoop (k+1) m.ph (m.dir pgdir) a pa perm = .error e) ∨
    ∃ m' r, Tables.mapLoop pgdir (a+k*PGSIZE) perm n m a pa = some (.ok (m', r)) ∧
      Apart m' pgdir ∧
      Paging.mapLoop (k+1) m.ph (m.dir pgdir) a pa perm = .ok (m'.ph, m'.dir pgdir, r) := by
  induction k with
  | zero =>
    intro m n a pa perm h hlt hn
    obtain ⟨n,rfl⟩ := Nat.exists_eq_succ_of_ne_zero (Nat.ne_of_gt hn)
    rcases h.mapLoop_pass n a (a+0*PGSIZE) pa perm with ⟨e,hr,hv⟩ | ⟨m',hr,h',hv⟩ | ⟨m',h',hr,hv⟩
    · exact Or.inl ⟨e,hr,hv 0⟩
    · exact Or.inr ⟨m',false,hr,h',hv 0⟩
    · rw [if_pos (by omega)] at hr
      exact Or.inr ⟨m',true,hr,h',hv 0⟩
  | succ k ih =>
    intro m n a pa perm h hlt hn
    obtain ⟨n,rfl⟩ := Nat.exists_eq_succ_of_ne_zero (Nat.ne_of_gt (Nat.zero_lt_of_lt hn))
    rcases h.mapLoop_pass n a (a+(k+1)*PGSIZE) pa perm with
      ⟨e,hr,hv⟩ | ⟨m',hr,h',hv⟩ | ⟨m',h',hr,hv⟩
    · exact Or.inl ⟨e,hr,hv (k+1)⟩
    · exact Or.inr ⟨m',false,hr,h',hv (k+1)⟩
    · have hnext : (a+PGSIZE)%2^32 = a+PGSIZE := Nat.mod_eq_of_lt (by unfold PGSIZE at *; omega)
      have hlast : a+(k+1)*PGSIZE = a+PGSIZE+k*PGSIZE := by ring
      rw [if_neg (by unfold PGSIZE; omega), hnext, hlast] at hr
      rw [hlast, Nat.succ_eq_add_one, hr, hv (k+1), hnext]
      exact ih _ _ perm h' (by unfold PGSIZE at *; omega) (by omega)

section
variable {va size : ℕ}

/-- The pages from `PGROUNDDOWN(va)` to `PGROUNDDOWN(va+size-1)`. -/
def pageCount (va size : ℕ) : ℕ := (PGROUNDDOWN (va+size-1)-PGROUNDDOWN va)/PGSIZE+1

theorem mappages_eq (hs : 0 < size) (hlt : va+size ≤ 2^32) (n : ℕ) (m : Raw) (pa perm : Pte) :
    mappages n m pgdir va size pa perm = mapLoop pgdir
      (PGROUNDDOWN va+(pageCount va size-1)*PGSIZE) perm n m (PGROUNDDOWN va) pa := by
  have hva : va%2^32 = va := Nat.mod_eq_of_lt (by omega)
  have hend : (va+size+2^32-1)%2^32 = va+size-1 := by omega
  have hlast : PGROUNDDOWN va+(pageCount va size-1)*PGSIZE = PGROUNDDOWN (va+size-1) := by
    unfold pageCount PGROUNDDOWN PGSIZE
    omega
  rw [mappages, hva, hend, hlast]

end

theorem walkpgdir_leaf (m : Raw) (pgdir va : ℕ) : (walkpgdir m pgdir va false).1 = m ∧
    m.leaf pgdir va = ((walkpgdir m pgdir va false).2.map fun x => m.word x.1 x.2).getD 0#32 := by
  unfold walkpgdir Raw.leaf
  split
  · exact ⟨rfl,rfl⟩
  · exact ⟨rfl,rfl⟩

/-- The tables of a directory are different frames and the range is not mapped. Then `mappages`
returns after at most one pass for each page, and has mapped the first `k` pages of the range
and nothing else: all of them when it returns 0, less when there was no frame for a table. -/
theorem mappages_flat (m : Raw) (pgdir va size : ℕ) (pa perm : Pte) (h : Apart m pgdir)
    (hs : 0 < size) (hlt : va+size ≤ 2^32)
    (hfree : ∀ a, PGROUNDDOWN va ≤ a → a < PGROUNDDOWN va+pageCount va size*PGSIZE →
      has (m.leaf pgdir a) PTE_P = false) :
    (∀ n ≥ pageCount va size, ∃ m' r k, mappages n m pgdir va size pa perm = some (.ok (m', r)) ∧
      Apart m' pgdir ∧ k ≤ pageCount va size ∧ (r = true ↔ k = pageCount va size) ∧
      (r = false → m'.ph.freelist = []) ∧
      ∀ a < 2^32, m'.leaf pgdir a = mapped (m.leaf pgdir) (PGROUNDDOWN va) k pa perm a) ∧
    ∀ a, (walkpgdir m pgdir a false).1 = m ∧ m.leaf pgdir a =
      ((walkpgdir m pgdir a false).2.map fun x => m.word x.1 x.2).getD 0#32 := by
  refine ⟨?_,walkpgdir_leaf m pgdir⟩
  intro n hn
  have hmod : PGROUNDDOWN va%PGSIZE = 0 := Nat.mul_mod_left _ _
  have hpages : PGROUNDDOWN va+pageCount va size*PGSIZE ≤ 2^32 := by
    unfold pageCount PGROUNDDOWN PGSIZE
    omega
  obtain ⟨k,hk⟩ : ∃ k, pageCount va size = k+1 := ⟨_,rfl⟩
  have hleaf : (m.dir pgdir).leaf = m.leaf pgdir := funext (dir_leaf m pgdir)
  rw [mappages_eq hs hlt]
  rw [hk] at hn hfree hpages ⊢
  rw [← hleaf] at hfree ⊢
  obtain ⟨ph,d,r,hret⟩ := mapLoop_returns m.ph (m.dir pgdir) pa perm hpages hmod hfree
  obtain ⟨j,hj,hr,hf,hflat⟩ := mapLoop_mapped hmod hpages hret
  rcases Apart.mapLoop k (PGROUNDDOWN va) pa perm h (by unfold PGSIZE at *; omega) hn with
    ⟨e,-,hv⟩ | ⟨m',r',hraw,h',hv⟩
  · rw [hret] at hv
    cases hv
  · rw [hret] at hv
    cases hv
    refine ⟨m',r,j,hraw,h',hj,hr,hf,?_⟩
    intro a ha
    rw [← hflat a ha, dir_leaf]

/-- An empty directory in frame 5 and the free frames `fs`. -/
def noTables (fs : List ℕ) : Raw := ⟨⟨fs,fun _ => 0,fun _ _ => 0⟩,fun _ _ => 0#32⟩

theorem noTables_leaf (fs : List ℕ) (pgdir va : ℕ) : (noTables fs).leaf pgdir va = 0#32 := ite_self _

theorem noTables_apart {fs : List ℕ} (hfs : ∀ f ∈ fs, f < 2^20 ∧ f ≠ 5) (hn : fs.Nodup) :
    Apart (noTables fs) 5 := by
  have hno : ∀ i, (noTables fs).present 5 i ≠ true := fun _ => ne_true_of_eq_false zero_P
  exact ⟨fun i _ _ _ hi => absurd hi (hno i),fun i _ hi => absurd hi (hno i),
    fun f hf => ⟨(hfs f hf).1,(hfs f hf).2,fun i _ hi => absurd hi (hno i)⟩,hn⟩

/-- The devices, up to the top of the address space. -/
theorem mappages_flat_devices : ∃ m' r k,
    mappages (pageCount DEVSPACE (2^32-DEVSPACE)) (noTables [6,7,8,9,10,11,12,13]) 5 DEVSPACE
      (2^32-DEVSPACE) (BitVec.ofNat 32 DEVSPACE) PTE_W = some (.ok (m', r)) ∧
    ∀ a < 2^32, m'.leaf 5 a = mapped ((noTables [6,7,8,9,10,11,12,13]).leaf 5)
      (PGROUNDDOWN DEVSPACE) k (BitVec.ofNat 32 DEVSPACE) PTE_W a := by
  obtain ⟨m',r,k,hret,-,-,-,-,hflat⟩ := (mappages_flat (noTables [6,7,8,9,10,11,12,13]) 5 DEVSPACE
    (2^32-DEVSPACE) (BitVec.ofNat 32 DEVSPACE) PTE_W (noTables_apart (by decide) (by decide))
    (by decide) (by decide) (fun a _ _ => by rw [noTables_leaf, zero_P])).1 _ le_rfl
  exact ⟨m',r,k,hret,hflat⟩

end Xv6.Tables
