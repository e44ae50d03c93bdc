import Xv6.Mem.Dealloc

/-!
# Growing an address space, or leaving it as it was

`allocuvm` maps one page after the other. What it has done up to an address is said by the
list of the frames it has mapped and the list of those it has made into page tables, both
taken off the free list. When a page is missing, `deallocuvm` unmaps the first list again,
and with free pages of count zero every frame of it goes back.
-/

set_option autoImplicit false

namespace Xv6.AllocSpec
open Xv6.Mmu Xv6.Kalloc Xv6.Paging Xv6.Ledger Xv6.Uvm Xv6.Halting Xv6.MapSpec Xv6.GrowSpec
open Xv6.Dealloc Xv6.View

/-- The entry that `allocuvm` makes for a frame. -/
def userEntry (f : ℕ) : Pte := physAddr f ||| (PTE_W ||| PTE_U) ||| PTE_P

/-- The present user pages are those below `sz`. -/
def MapsBelow (d : PageDir) (sz : ℕ) : Prop :=
  ∀ v < UPAGES, has (d.leaf (v*PGSIZE)) PTE_P = true ↔ v*PGSIZE < sz

/-- The free pages are distinct, managed by the allocator, not counted and not mapped. -/
structure Spare (ph : Phys) (d : PageDir) : Prop where
  nodup : ph.freelist.Nodup
  range : ∀ f ∈ ph.freelist, InRange f
  zero : ∀ f ∈ ph.freelist, ph.pgRefcount f = 0
  apart : ∀ v < UPAGES, has (d.leaf (v*PGSIZE)) PTE_P = true →
    pteFrame (d.leaf (v*PGSIZE)) ∉ ph.freelist

theorem mapPage (ph : Phys) {d : PageDir} {a : ℕ} (pa perm : Pte) (ha : a%PGSIZE = 0)
    (hk : a < KERNBASE) (hp : has (d.leaf a) PTE_P = false) :
    (mappages ph d a PGSIZE pa perm = .ok (ph, d, false) ∧ ph.freelist = []) ∨
    ∃ ph' d' ts, mappages ph d a PGSIZE pa perm = .ok (ph', d', true) ∧
      ph.freelist = ts++ph'.freelist ∧ d'.frames.Perm (ts++d.frames) ∧
      ph'.pgRefcount = ph.pgRefcount ∧ ph'.mem = ph.mem ∧
      ∀ va < 2^32, d'.leaf va = if va/PGSIZE = a/PGSIZE then pa ||| perm ||| PTE_P else d.leaf va := by
  have h32 : a < 2^32 := by unfold KERNBASE at hk; omega
  rw [mappages_page ph d a pa perm ha hk, mapLoop]
  rcases walkpgdir_cases ph d a with ⟨p,hw,he⟩ | ⟨hw,hl,he⟩ | ⟨f,fs,hw,hl,he⟩
  · rw [leaf_of_walk hw] at hp
    rw [he]
    dsimp only
    rw [if_neg (by simp [hp])]
    exact Or.inr ⟨ph,_,[],rfl,rfl,by rw [setPte_frames]; exact List.Perm.refl _,rfl,rfl,
      fun va hva => setPte_leaf d a va _ p h32 hva hw⟩
  · rw [he]
    exact Or.inl ⟨rfl,hl⟩
  · rw [he]
    dsimp only
    rw [if_neg (by simp [zero_P])]
    refine Or.inr ⟨_,_,[f],rfl,hl,?_,rfl,rfl,fun va hva => ?_⟩
    · rw [setPte_frames]
      exact addTable_frames d a f hw
    · rw [setPte_leaf _ a va _ _ h32 hva (addTable_walk d a f), addTable_leaf d a va f hw]

/-- What the loop has done when it has come from `a` to `b`: the pages between have the
frames `fs`, and the frames `ts` are new page tables. -/
structure Mapped (ph : Phys) (d : PageDir) (a b : ℕ) (ph' : Phys) (d' : PageDir)
    (fs ts : List ℕ) : Prop where
  taken : ph.freelist.Perm (fs++(ts++ph'.freelist))
  tables : d'.frames.Perm (ts++d.frames)
  pages : b = a+fs.length*PGSIZE
  inside : ∀ i (hi : i < fs.length), d'.leaf (a+i*PGSIZE) = userEntry (fs.get ⟨i, hi⟩)
  outside : ∀ va < 2^32, va < a ∨ b ≤ va → d'.leaf va = d.leaf va
  count : ∀ f, ph'.pgRefcount f =
    if f ∈ fs then toChar (ph.pgRefcount f+1) else ph.pgRefcount f
  mem : ∀ f, ph'.mem f = if f ∈ fs then fun _ => 0 else ph.mem f

section
variable {ph ph' ph1 : Phys} {d d' d1 : PageDir} {a b : ℕ} {fs ts : List ℕ}

theorem Mapped.refl (ph : Phys) (d : PageDir) (a : ℕ) : Mapped ph d a a ph d [] [] where
  taken := List.Perm.refl _
  tables := List.Perm.refl _
  pages := by simp
  inside i hi := absurd hi (Nat.not_lt_zero i)
  outside _ _ _ := rfl
  count _ := rfl
  mem _ := rfl

theorem Mapped.distinct (h : Mapped ph d a b ph' d' fs ts) (hn : ph.freelist.Nodup) :
    (fs++(ts++ph'.freelist)).Nodup := h.taken.nodup_iff.mp hn

theorem Mapped.fresh (h : Mapped ph d a b ph' d' fs ts) {f : ℕ} (hf : f ∈ fs) :
    f ∈ ph.freelist := h.taken.mem_iff.mpr (List.mem_append_left _ hf)

theorem Mapped.next (h : Mapped ph d a b ph' d' fs ts) (hn : ph.freelist.Nodup) {f : ℕ}
    {rest : List ℕ} (hf : ph'.freelist = f::rest) : f ∉ fs := by
  have hnd := h.distinct hn
  rw [hf] at hnd
  intro hmem
  exact (List.nodup_append.mp hnd).2.2 f hmem f (by simp) rfl

theorem Mapped.step (h : Mapped ph d a b ph' d' fs ts) {f : ℕ} (hfs : f ∉ fs)
    (ha : a%PGSIZE = 0) (hk : b < KERNBASE) {rest us : List ℕ}
    (hf : ph'.freelist = f::rest) (hr : rest = us++ph1.freelist)
    (ht : d1.frames.Perm (us++d'.frames)) (hc : ph1.pgRefcount = ph'.pgRefcount)
    (hm : ph1.mem = Function.update ph'.mem f (fun _ => 0))
    (hl : ∀ va < 2^32, d1.leaf va = if va/PGSIZE = b/PGSIZE then userEntry f else d'.leaf va) :
    Mapped ph d a (b+PGSIZE) (ph1.incRef f) d1 (fs++[f]) (ts++us) := by
  have hpages := h.pages
  refine ⟨?_,?_,?_,fun i hi => ?_,fun va hva hout => ?_,fun g => ?_,fun g => ?_⟩
  · refine h.taken.trans ?_
    rw [hf, hr, List.append_assoc, List.append_assoc, List.singleton_append]
    refine List.Perm.append_left fs ?_
    exact List.perm_middle
  · refine (ht.trans (h.tables.append_left us)).trans ?_
    rw [← List.append_assoc]
    exact List.perm_append_comm.append_right d.frames
  · rw [List.length_append, List.length_singleton]
    unfold PGSIZE at *
    omega
  · have hlt : i < fs.length+1 := by simpa using hi
    rw [hl _ (by unfold KERNBASE PGSIZE at *; omega)]
    by_cases hi' : i < fs.length
    · rw [if_neg (by unfold PGSIZE at *; omega), h.inside i hi', List.get_eq_getElem,
        List.get_eq_getElem, List.getElem_append_left hi']
    · have hilen : i = fs.length := by omega
      subst hilen
      rw [if_pos (by rw [hpages]), List.get_eq_getElem, List.getElem_append_right (le_refl _)]
      simp
  · have hne : va/PGSIZE ≠ b/PGSIZE := by unfold PGSIZE at *; omega
    rw [hl va hva, if_neg hne]
    exact h.outside va hva (by omega)
  · by_cases hg : g = f
    · subst hg
      rw [incRef_self, hc, h.count, if_neg hfs, if_pos (by simp)]
    · rw [incRef_other ph1 hg, hc, h.count]
      simp [hg]
  · rw [incRef_mem, hm]
    by_cases hg : g = f
    · subst hg
      simp
    · rw [Function.update_of_ne hg, h.mem]
      simp [hg]

/-! ## Taking it back -/

theorem filterMap_range' {α : Type*} {l : List α} {g : ℕ → Option α} {s : ℕ}
    (h : ∀ i (hi : i < l.length), g (s+i) = some (l.get ⟨i, hi⟩)) :
    (List.range' s l.length).filterMap g = l := by
  induction l generalizing s with
  | nil => rfl
  | cons x l ih =>
    have h0 : g s = some x := h 0 (by simp)
    rw [List.length_cons, List.range'_succ, List.filterMap_cons, h0]
    refine congrArg (List.cons x) (ih fun i hi => ?_)
    rw [Nat.add_assoc, Nat.add_comm 1 i]
    exact h (i+1) (by simpa using hi)

theorem released_all {c : ℕ → ℤ} {l : List ℕ} (hn : l.Nodup)
    (h : ∀ f ∈ l, toChar (c f-1) = 0) : released c l = l := by
  induction l generalizing c with
  | nil => rfl
  | cons f l ih =>
    obtain ⟨hf,hn⟩ := List.nodup_cons.mp hn
    rw [released, if_pos (h f List.mem_cons_self)]
    refine congrArg (List.cons f) (ih hn fun g hg => ?_)
    have hgf : g ≠ f := fun he => hf (he ▸ hg)
    rw [Function.update_of_ne hgf]
    exact h g (List.mem_cons_of_mem f hg)

theorem userEntry_P (f : ℕ) : has (userEntry f) PTE_P = true := entry_P f _

theorem userEntry_frame {f : ℕ} (h : InRange f) : pteFrame (userEntry f) = f :=
  pteFrame_entry f (inRange_lt h) _ userPerm_low

theorem Mapped.leaf_cases (h : Mapped ph d a b ph' d' fs ts) (ha : a%PGSIZE = 0) {va : ℕ}
    (hva : va < 2^32) : (∃ f ∈ fs, a ≤ va ∧ va < b ∧ d'.leaf va = userEntry f) ∨
      (va < a ∨ b ≤ va) ∧ d'.leaf va = d.leaf va := by
  have hpages := h.pages
  by_cases hout : va < a ∨ b ≤ va
  · exact Or.inr ⟨hout,h.outside va hva hout⟩
  · have hi : va/PGSIZE-a/PGSIZE < fs.length := by unfold PGSIZE at *; omega
    refine Or.inl ⟨_,fs.get_mem ⟨_, hi⟩,by omega,by omega,?_⟩
    rw [← h.inside _ hi, ← leaf_page]
    congr 1
    unfold PGSIZE at *
    omega

theorem Mapped.frames {oldsz newsz : ℕ} (h : Mapped ph d (PGROUNDUP oldsz) b ph' d' fs ts)
    (hs : Spare ph d) (hd : MapsBelow d oldsz) (hb : b < newsz) (hn : newsz ≤ KERNBASE) :
    mappedFrames d' (pagesOf newsz oldsz) = fs := by
  have hpages := h.pages
  have hstart : PGROUNDUP oldsz = pageCount oldsz*PGSIZE := rfl
  have hle : pageCount oldsz+fs.length ≤ pageCount newsz := by
    unfold pageCount PGSIZE at *
    omega
  have hmin : min (pageCount newsz) (pageCount oldsz+fs.length)-pageCount oldsz = fs.length := by
    omega
  rw [mappedFrames, pagesOf, pages_split (Nat.le_add_right (pageCount oldsz) fs.length), hmin,
    List.filterMap_append, filterMap_range' fun i hi => ?_,
    List.filterMap_eq_nil_iff.mpr fun v hv => ?_, List.append_nil]
  · obtain ⟨h1,h2⟩ := List.mem_range'_1.mp hv
    have hvlt : v < UPAGES := by
      rw [UPAGES_eq]
      unfold pageCount PGSIZE KERNBASE at *
      omega
    have hv32 := page_addr hvlt
    have habs : ¬ has (d.leaf (v*PGSIZE)) PTE_P = true := by
      rw [hd v hvlt]
      unfold pageCount PGSIZE at *
      omega
    rw [h.outside _ (by unfold KERNBASE at hv32; omega)
      (Or.inr (by rw [hpages, hstart]; unfold PGSIZE at *; omega)), if_neg habs]
  · have hin := h.inside i hi
    rw [show PGROUNDUP oldsz+i*PGSIZE = (pageCount oldsz+i)*PGSIZE by rw [hstart]; ring] at hin
    have hf := hs.range _ (h.fresh (fs.get_mem ⟨i, hi⟩))
    rw [hin, if_pos (userEntry_P _), userEntry_frame hf]

theorem Mapped.undo {oldsz newsz : ℕ} (h : Mapped ph d (PGROUNDUP oldsz) b ph' d' fs ts)
    (hs : Spare ph d) (hd : MapsBelow d oldsz) (hb : b < newsz) (hn : newsz ≤ KERNBASE)
    {q : Phys} (hq : q.pgRefcount = ph'.pgRefcount) :
    ∃ ph'' d'', deallocuvm q d' newsz oldsz = .ok (ph'', d'', oldsz) ∧
      ph''.freelist = fs.reverse++q.freelist ∧ ph''.pgRefcount = ph.pgRefcount ∧
      (∀ f, f ∉ fs → ph''.mem f = q.mem f) ∧ d''.frames = d'.frames ∧
      ∀ va < 2^32, has (d''.leaf va) PTE_P = has (d.leaf va) PTE_P ∧
        (has (d.leaf va) PTE_P = true → d''.leaf va = d.leaf va) := by
  have hpages := h.pages
  have hframes := h.frames hs hd hb hn
  have hstart : PGROUNDUP oldsz = pageCount oldsz*PGSIZE := rfl
  have hfs : fs.Nodup := (List.nodup_append.mp (h.distinct hs.nodup)).1
  have hzero : ∀ f ∈ fs, ph.pgRefcount f = 0 := fun f hf => hs.zero f (h.fresh hf)
  have hrel : released q.pgRefcount fs = fs := by
    refine released_all hfs fun f hf => ?_
    rw [hq, h.count, if_pos hf, hzero f hf]
    rfl
  have hround : PGROUNDUP oldsz%PGSIZE = 0 := by unfold PGROUNDUP PGSIZE; omega
  -- a page of the range that is present is one of those mapped so far
  have hcase : ∀ va < 2^32, (∃ f ∈ fs, va/PGSIZE ∈ pagesOf newsz oldsz ∧ d'.leaf va = userEntry f ∧
        has (d.leaf va) PTE_P = false) ∨
      (va/PGSIZE ∈ pagesOf newsz oldsz → has (d.leaf va) PTE_P = false) ∧
        d'.leaf va = d.leaf va := by
    intro va hva
    have habs : va/PGSIZE ∈ pagesOf newsz oldsz → has (d.leaf va) PTE_P = false := by
      intro hmem
      rw [Bool.eq_false_iff, ← leaf_page, Ne, hd _ (pagesOf_lt hn hmem)]
      have := (pagesOf_mem.mp hmem).1
      unfold PGROUNDUP PGSIZE at *
      omega
    rcases h.leaf_cases hround hva with ⟨f,hf,h1,h2,hleaf⟩ | ⟨-,hleaf⟩
    · have hmem : va/PGSIZE ∈ pagesOf newsz oldsz := by
        rw [pagesOf_mem]
        unfold PGSIZE at *
        omega
      exact Or.inl ⟨f,hf,hmem,hleaf,habs hmem⟩
    · exact Or.inr ⟨habs,hleaf⟩
  have hin : ∀ v ∈ pagesOf newsz oldsz, has (d'.leaf (v*PGSIZE)) PTE_P = true →
      InRange (pteFrame (d'.leaf (v*PGSIZE))) := by
    intro v hv hP
    have hva := page_addr (pagesOf_lt hn hv)
    rcases hcase (v*PGSIZE) (by unfold KERNBASE at hva; omega) with ⟨f,hf,-,hleaf,-⟩ | ⟨habs,hleaf⟩
    · have hr := hs.range f (h.fresh hf)
      rwa [hleaf, userEntry_frame hr]
    · rw [hleaf, habs (by rwa [Nat.mul_div_cancel v (by decide)])] at hP
      cases hP
  obtain ⟨ph'',d'',hrun,hdrop⟩ := deallocuvm_drops q d' newsz oldsz
    (by unfold PGROUNDUP PGSIZE at *; omega) hn hin
  refine ⟨ph'',d'',hrun,?_,?_,fun f hf => ?_,hdrop.frames,fun va hva => ?_⟩
  · rw [hdrop.free, hframes, hrel]
  · funext f
    rw [hdrop.count, hframes, hq, h.count]
    by_cases hf : f ∈ fs
    · rw [List.count_eq_one_of_mem hfs hf, if_pos hf, hzero f hf]
      rfl
    · rw [List.count_eq_zero_of_not_mem hf, if_neg hf]
      rfl
  · rw [hdrop.mem f (by rw [hframes, hrel]; exact hf)]
  · rw [hdrop.leaf va hva]
    rcases hcase va hva with ⟨f,-,hmem,hleaf,habs⟩ | ⟨habs,hleaf⟩
    · rw [hleaf, if_pos ⟨hmem,userEntry_P f⟩, habs, zero_P]
      simp
    · rw [hleaf, if_neg (fun hc => by rw [habs hc.1] at hc; exact absurd hc.2 (by decide))]
      simp

/-! ## The whole call -/

/-- Nothing but page tables has been added: the mappings, the counters and the contents of
all pages in use are those of before. -/
structure Restored (ph : Phys) (d : PageDir) (ph' : Phys) (d' : PageDir) : Prop where
  leaf : ∀ va < 2^32, has (d'.leaf va) PTE_P = has (d.leaf va) PTE_P ∧
    (has (d.leaf va) PTE_P = true → d'.leaf va = d.leaf va)
  count : ph'.pgRefcount = ph.pgRefcount
  contents : ∀ f, f ∉ ph.freelist → ph'.mem f = ph.mem f
  free : ∃ ts, ph.freelist.Perm (ts++ph'.freelist) ∧ d'.frames.Perm (ts++d.frames)

theorem allocLoop_outcome {oldsz newsz n : ℕ} (hs : Spare ph d) (hd : MapsBelow d oldsz)
    (hn : newsz ≤ KERNBASE) (h : Mapped ph d (PGROUNDUP oldsz) b ph' d' fs ts)
    (hb : b ≤ PGROUNDUP newsz) (hfuel : newsz ≤ b+n*PGSIZE) :
    ∃ ph'' d'' r, allocLoop oldsz newsz n b ph' d' = .ok (ph'', d'', r) ∧
      ((r = newsz ∧ ∃ fs ts, Mapped ph d (PGROUNDUP oldsz) (PGROUNDUP newsz) ph'' d'' fs ts) ∨
        (r = 0 ∧ Restored ph d ph'' d'')) := by
  have hround : PGROUNDUP oldsz%PGSIZE = 0 := by unfold PGROUNDUP PGSIZE; omega
  have hpage : ∀ {b : ℕ} {ph' : Phys} {d' : PageDir} {fs ts : List ℕ},
      Mapped ph d (PGROUNDUP oldsz) b ph' d' fs ts → b%PGSIZE = 0 := by
    intro b ph' d' fs ts h
    have := h.pages
    unfold PGSIZE at *
    omega
  have hend : ∀ {b : ℕ}, b%PGSIZE = 0 → b ≤ PGROUNDUP newsz → newsz ≤ b → b = PGROUNDUP newsz := by
    intro b h1 h2 h3
    unfold PGROUNDUP PGSIZE at *
    omega
  induction n generalizing b ph' d' fs ts with
  | zero =>
    have he := hend (hpage h) hb (by omega)
    subst he
    exact ⟨ph',d',newsz,rfl,Or.inl ⟨rfl,fs,ts,h⟩⟩
  | succ n ih =>
    rw [allocLoop]
    split
    · next hlt =>
      have hk : b < KERNBASE := by omega
      have htake : (fs++(ts++ph'.freelist)).Perm (ts++(fs.reverse++ph'.freelist)) :=
        ((List.reverse_perm fs).symm.append_right _).trans
          (List.perm_append_comm_assoc _ _ _)
      rcases kalloc_cases ph' with ⟨hl,hka⟩ | ⟨f,rest,hl,hka⟩
      · -- no page for the data
        obtain ⟨ph2,d2,hrun,hfree,hcount,hmem,hfr,hleaf⟩ := h.undo hs hd hlt hn rfl
        rw [hka]
        dsimp only
        rw [hrun]
        refine ⟨ph2,d2,0,rfl,Or.inr ⟨rfl,hleaf,hcount,fun g hg => ?_,ts,?_,?_⟩⟩
        · have hgf : g ∉ fs := fun hf => hg (h.fresh hf)
          rw [hmem g hgf, h.mem, if_neg hgf]
        · rw [hfree]
          exact h.taken.trans htake
        · rw [hfr]
          exact h.tables
      · rw [hka]
        dsimp only
        have habs : has (d'.leaf b) PTE_P = false := by
          rw [h.outside b (by unfold KERNBASE at hk; omega) (Or.inr (le_refl b)),
            Bool.eq_false_iff, ← leaf_page, Ne, hd _ (page_lt hk)]
          have := h.pages
          unfold PGROUNDUP PGSIZE at *
          omega
        rcases mapPage (({ ph' with freelist := rest } : Phys).fill f fun _ => 0)
          (physAddr f) (PTE_W ||| PTE_U) (hpage h) hk habs with
          ⟨hmap,hnil⟩ | ⟨ph1,d1,us,hmap,hus,htab,hcnt,hmem,hleaf⟩
        · -- no page for the page table
          obtain ⟨ph2,d2,hrun,hfree,hcount,hmem,hfr,hleaf⟩ := h.undo hs hd hlt hn
            (q := ({ ph' with freelist := rest } : Phys).fill f fun _ => 0) rfl
          have hrest : rest = [] := hnil
          have hf : f ∈ ph.freelist := h.taken.mem_iff.mpr (by simp [hl])
          rw [hmap]
          dsimp only [ok_bind]
          rw [if_neg (by decide), hrun]
          dsimp only [ok_bind]
          rw [kfree, if_pos (hs.range f hf)]
          refine ⟨_,d2,0,rfl,Or.inr ⟨rfl,hleaf,hcount,fun g hg => ?_,ts,?_,?_⟩⟩
          · have hgf : g ∉ fs := fun hf => hg (h.fresh hf)
            have hne : g ≠ f := fun he => hg (he ▸ hf)
            dsimp only [Phys.fill]
            rw [Function.update_of_ne hne, hmem g hgf]
            dsimp only [Phys.fill]
            rw [Function.update_of_ne hne, h.mem, if_neg hgf]
          · dsimp only [Phys.fill]
            rw [hfree]
            dsimp only [Phys.fill]
            refine (h.taken.trans htake).trans (List.Perm.append_left ts ?_)
            rw [hl]
            exact List.perm_middle
          · rw [hfr]
            exact h.tables
        · rw [hmap]
          dsimp only [ok_bind]
          rw [if_pos rfl]
          refine ih (h.step (h.next hs.nodup hl) hround hk hl hus htab hcnt hmem hleaf) ?_ ?_
          · have := hpage h
            unfold PGROUNDUP PGSIZE at *
            omega
          · unfold PGSIZE at *
            omega
    · have he := hend (hpage h) hb (by omega)
      subst he
      exact ⟨ph',d',newsz,rfl,Or.inl ⟨rfl,fs,ts,h⟩⟩

/-- The pages of `[PGROUNDUP(oldsz), newsz)` have been added, each with a frame of its own that
was free, is zero now, writable, accessible to the user and counted once. -/
structure Extended (ph : Phys) (d : PageDir) (oldsz newsz : ℕ) (ph' : Phys) (d' : PageDir) :
    Prop where
  old : ∀ va < 2^32, va < PGROUNDUP oldsz ∨ PGROUNDUP newsz ≤ va → d'.leaf va = d.leaf va
  new : ∀ v, PGROUNDUP oldsz ≤ v*PGSIZE → v*PGSIZE < newsz → ∃ f ∈ ph.freelist,
    d'.leaf (v*PGSIZE) = userEntry f ∧ pteFrame (userEntry f) = f ∧
    ph'.mem f = (fun _ => 0) ∧ ph'.pgRefcount f = 1
  distinct : ∀ v w, PGROUNDUP oldsz ≤ v*PGSIZE → v*PGSIZE < newsz → PGROUNDUP oldsz ≤ w*PGSIZE →
    w*PGSIZE < newsz → pteFrame (d'.leaf (v*PGSIZE)) = pteFrame (d'.leaf (w*PGSIZE)) → v = w
  others : ∀ f, f ∉ ph.freelist → ph'.mem f = ph.mem f ∧ ph'.pgRefcount f = ph.pgRefcount f
  free : ∃ fs ts, ph.freelist.Perm (fs++(ts++ph'.freelist)) ∧ d'.frames.Perm (ts++d.frames) ∧
    fs.length = pageCount newsz-pageCount oldsz

theorem Mapped.extended {oldsz newsz : ℕ} (hs : Spare ph d)
    (h : Mapped ph d (PGROUNDUP oldsz) (PGROUNDUP newsz) ph' d' fs ts) :
    Extended ph d oldsz newsz ph' d' := by
  have hpages := h.pages
  have hstart : PGROUNDUP oldsz = pageCount oldsz*PGSIZE := rfl
  have hlen : fs.length = pageCount newsz-pageCount oldsz := by
    unfold PGROUNDUP pageCount PGSIZE at *
    omega
  have hnd : fs.Nodup := (List.nodup_append.mp (h.distinct hs.nodup)).1
  -- the page `v` has the frame at its place in the list
  have hat : ∀ v, PGROUNDUP oldsz ≤ v*PGSIZE → v*PGSIZE < newsz →
      ∃ hi : v-pageCount oldsz < fs.length, d'.leaf (v*PGSIZE) = userEntry (fs.get ⟨_, hi⟩) := by
    intro v h1 h2
    have hi : v-pageCount oldsz < fs.length := by
      unfold PGROUNDUP pageCount PGSIZE at *
      omega
    have haddr : PGROUNDUP oldsz+(v-pageCount oldsz)*PGSIZE = v*PGSIZE := by
      rw [hstart] at h1 ⊢
      rw [← Nat.add_mul, Nat.add_sub_of_le (Nat.le_of_mul_le_mul_right h1 (by decide))]
    exact ⟨hi,by rw [← haddr]; exact h.inside _ hi⟩
  have hfresh : ∀ i, fs.get i ∈ ph.freelist := fun i => h.fresh (fs.get_mem i)
  refine ⟨h.outside,fun v h1 h2 => ?_,fun v w h1 h2 h3 h4 he => ?_,fun f hf => ?_,
    fs,ts,h.taken,h.tables,hlen⟩
  · obtain ⟨hi,hleaf⟩ := hat v h1 h2
    have hmem := fs.get_mem ⟨_, hi⟩
    refine ⟨_,hfresh _,hleaf,userEntry_frame (hs.range _ (hfresh _)),?_,?_⟩
    · rw [h.mem, if_pos hmem]
    · rw [h.count, if_pos hmem, hs.zero _ (hfresh _)]
      rfl
  · obtain ⟨hi,hv⟩ := hat v h1 h2
    obtain ⟨hj,hw⟩ := hat w h3 h4
    rw [hv, hw, userEntry_frame (hs.range _ (hfresh _)), userEntry_frame (hs.range _ (hfresh _))] at he
    have hij := (List.Nodup.get_inj_iff hnd).mp he
    rw [Fin.mk.injEq] at hij
    unfold PGROUNDUP pageCount PGSIZE at *
    omega
  · have hff : f ∉ fs := fun hm => hf (h.fresh hm)
    rw [h.mem, h.count, if_neg hff, if_neg hff]
    exact ⟨rfl,rfl⟩

/-- `allocuvm` adds exactly the missing pages, or it returns zero and has taken nothing but
page tables. -/
theorem allocuvm_all_or_nothing {oldsz newsz : ℕ} (hs : Spare ph d) (hd : MapsBelow d oldsz)
    (ho : oldsz ≤ newsz) (hn : newsz < KERNBASE) :
    ∃ ph' d' r, allocuvm ph d oldsz newsz = .ok (ph', d', r) ∧
      ((r = newsz ∧ Extended ph d oldsz newsz ph' d') ∨ (r = 0 ∧ Restored ph d ph' d')) := by
  rw [allocuvm, if_neg (by omega), if_neg (by omega)]
  obtain ⟨ph',d',r,h,hcase⟩ := allocLoop_outcome (n := newsz/PGSIZE+1) hs hd hn.le
    (Mapped.refl ph d _) (by unfold PGROUNDUP PGSIZE; omega) (by unfold PGROUNDUP PGSIZE; omega)
  refine ⟨ph',d',r,h,?_⟩
  rcases hcase with ⟨hr,fs,ts,hm⟩ | hr
  · exact Or.inl ⟨hr,hm.extended hs⟩
  · exact Or.inr hr

end

/-- A directory with an empty page table for the lowest addresses. -/
def emptyDir : PageDir := ⟨0x300, fun i => if i = 0 then some ⟨0x301, fun _ => 0#32⟩ else none⟩

theorem emptyDir_leaf (va : ℕ) : emptyDir.leaf va = 0#32 := by
  rw [PageDir.leaf, PageDir.walk, emptyDir]
  dsimp only
  split <;> rfl

/-- A machine with one free page, whose counter is `z`. -/
def onePage (z : ℤ) : Phys := ⟨[0x200], fun _ => z, fun _ _ => 0⟩

theorem onePage_spare : Spare (onePage 0) emptyDir := by
  refine ⟨List.nodup_singleton _,fun f hf => ?_,fun _ _ => rfl,fun v _ hP => ?_⟩
  · rw [List.mem_singleton.mp hf]
    decide
  · rw [emptyDir_leaf, zero_P] at hP
    cases hP

theorem emptyDir_below : MapsBelow emptyDir 0 := by
  intro v _
  rw [emptyDir_leaf, zero_P]
  simp

/-- Growing by two pages with one free page. -/
theorem allocuvm_all_or_nothing_short : Spare (onePage 0) emptyDir ∧ MapsBelow emptyDir 0 ∧
    ∃ ph' d' r, allocuvm (onePage 0) emptyDir 0 (2*PGSIZE) = .ok (ph', d', r) ∧
      ((r = 2*PGSIZE ∧ Extended (onePage 0) emptyDir 0 (2*PGSIZE) ph' d') ∨
        (r = 0 ∧ Restored (onePage 0) emptyDir ph' d')) :=
  ⟨onePage_spare,emptyDir_below,
    allocuvm_all_or_nothing onePage_spare emptyDir_below (by decide) (by decide)⟩

/-- A free page whose counter is not zero: the page is added with another count than one. -/
theorem allocuvm_stale_count : MapsBelow emptyDir 0 ∧ ∃ ph' d',
    allocuvm (onePage (-1)) emptyDir 0 PGSIZE = .ok (ph', d', PGSIZE) ∧
      has (d'.leaf 0) PTE_P = true ∧ ph'.pgRefcount (pteFrame (d'.leaf 0)) = 0 :=
  ⟨emptyDir_below,_,_,rfl,rfl,rfl⟩

end Xv6.AllocSpec
