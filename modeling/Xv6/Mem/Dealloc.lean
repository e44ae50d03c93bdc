import Xv6.Mem.View
import Xv6.Mem.Supply

/-!
# Unmapping a range page by page

`deallocuvm` skips the rest of a directory entry whose page table is missing. The plain
loop visits every page of the range, in the order of the addresses, and finds no entry in
those that were skipped; so the two loops come to the same result, and what they do is
read off the list of the frames that were mapped: each is counted down once, and goes on
the free list when its count comes to zero.
-/

set_option autoImplicit false

namespace Xv6.Dealloc
open Xv6.Mmu Xv6.Kalloc Xv6.Paging Xv6.Ledger Xv6.Uvm Xv6.Halting Xv6.FreeSpec Xv6.Supply
open Xv6.View

/-- The body of the loop for the page `v`. -/
def dropPage (x : Phys × PageDir) (v : ℕ) : Except Halt (Phys × PageDir) :=
  match x.2.walk (v*PGSIZE) with
  | none => .ok x
  | some p =>
    if has p PTE_P then
      if pteAddr p = 0#32 then .error (.panic "kfree")
      else do
        let ph ← dropRef x.1 (pteFrame p)
        .ok (ph, x.2.setPte (v*PGSIZE) 0#32)
    else .ok x

/-- The pages of `[PGROUNDUP(newsz), oldsz)`. -/
def pagesOf (oldsz newsz : ℕ) : List ℕ :=
  List.range' (pageCount newsz) (pageCount oldsz-pageCount newsz)

/-- `deallocuvm` without the step over missing page tables. -/
def deallocEach (ph : Phys) (d : PageDir) (oldsz newsz : ℕ) : Except Halt (Phys × PageDir × ℕ) :=
  if oldsz ≤ newsz then .ok (ph, d, oldsz)
  else do
    let (ph, d) ← (pagesOf oldsz newsz).foldlM dropPage (ph, d)
    .ok (ph, d, newsz)

theorem dropPages_absent {l l' : List ℕ} {x : Phys × PageDir}
    (h : ∀ v ∈ l, x.2.walk (v*PGSIZE) = none) :
    (l++l').foldlM dropPage x = l'.foldlM dropPage x := by
  induction l with
  | nil => rfl
  | cons v l ih =>
    rw [List.cons_append, List.foldlM_cons, dropPage, h v List.mem_cons_self]
    exact ih fun w hw => h w (List.mem_cons_of_mem v hw)

theorem pages_split {a b n : ℕ} (h : a ≤ b) :
    List.range' a (n-a) = List.range' a (min n b-a)++List.range' b (n-b) := by
  by_cases hle : n ≤ b
  · rw [min_eq_left hle, Nat.sub_eq_zero_of_le hle, List.range'_zero, List.append_nil]
  · have hsum := @List.range'_append a (b-a) (n-b) 1
    rw [Nat.one_mul, Nat.add_sub_of_le h, show b-a+(n-b) = n-a by omega] at hsum
    rw [min_eq_right (by omega), hsum]

theorem walk_skipped {d : PageDir} {a v : ℕ} (hw : d.walk a = none) (hv : a ≤ v*PGSIZE)
    (hlt : v*PGSIZE < (a/2^22+1)*2^22) : d.walk (v*PGSIZE) = none := by
  have hd : PDX (v*PGSIZE) = PDX a := by
    unfold PDX PGSIZE at *
    omega
  have hn : d.pde (PDX a) = none := by simpa [PageDir.walk] using hw
  rw [PageDir.walk, hd, hn]
  rfl

theorem deallocLoop_each {oldsz n a : ℕ} (ph : Phys) (d : PageDir) (ho : oldsz ≤ KERNBASE)
    (ha : a%PGSIZE = 0) (hfuel : oldsz ≤ a+n*PGSIZE) :
    deallocLoop oldsz n a ph d =
      (List.range' (a/PGSIZE) (pageCount oldsz-a/PGSIZE)).foldlM dropPage (ph, d) := by
  have hdone : ∀ {a : ℕ}, a%PGSIZE = 0 → oldsz ≤ a →
      List.range' (a/PGSIZE) (pageCount oldsz-a/PGSIZE) = [] := by
    intro a ha hle
    rw [show pageCount oldsz-a/PGSIZE = 0 by unfold pageCount PGSIZE at *; omega, List.range'_zero]
  induction n generalizing a ph d with
  | zero =>
    rw [hdone ha (by omega)]
    rfl
  | succ n ih =>
    rw [deallocLoop]
    split
    · next hlt =>
      have hk : a < KERNBASE := by omega
      have hpage : a/PGSIZE*PGSIZE = a := by unfold PGSIZE at *; omega
      -- the first page of the range is the one at `a`
      have hcons : List.range' (a/PGSIZE) (pageCount oldsz-a/PGSIZE) =
          a/PGSIZE::List.range' ((a+PGSIZE)/PGSIZE) (pageCount oldsz-(a+PGSIZE)/PGSIZE) := by
        have h1 : (a+PGSIZE)/PGSIZE = a/PGSIZE+1 := by unfold PGSIZE; omega
        have h2 : pageCount oldsz-a/PGSIZE = (pageCount oldsz-(a/PGSIZE+1))+1 := by
          unfold pageCount PGSIZE at *
          omega
        rw [h1, h2, List.range'_succ]
      have hnext := fun ph d => @ih (a+PGSIZE) ph d (by unfold PGSIZE at *; omega)
        (by unfold PGSIZE at *; omega)
      split
      · next hw =>
        rw [skip_addr hk, ih ph d (by unfold PGSIZE; omega) (by unfold PGSIZE at *; omega)]
        -- the pages up to the next directory entry have no page table either
        have hnext : a/PGSIZE ≤ (a/2^22+1)*2^22/PGSIZE := by unfold PGSIZE; omega
        rw [pages_split hnext, dropPages_absent fun v hv => ?_]
        obtain ⟨h1,h2⟩ := List.mem_range'_1.mp hv
        refine walk_skipped hw ?_ ?_
        · rw [← hpage]
          exact Nat.mul_le_mul_right _ h1
        · have hlt : v < (a/2^22+1)*2^22/PGSIZE := by omega
          unfold PGSIZE at *
          omega
      · next p hw =>
        rw [hcons, List.foldlM_cons, dropPage, hpage, hw]
        dsimp only
        split
        · split
          · rw [error_bind]
          · cases dropRef ph (pteFrame p) with
            | error e => rw [error_bind, error_bind, error_bind]
            | ok ph1 =>
              rw [ok_bind, ok_bind, ok_bind]
              exact hnext ph1 (d.setPte a 0#32)
        · rw [ok_bind]
          exact hnext ph d
    · rw [hdone ha (by omega)]
      rfl

theorem deallocuvm_each (ph : Phys) (d : PageDir) {oldsz : ℕ} (newsz : ℕ) (ho : oldsz ≤ KERNBASE) :
    deallocuvm ph d oldsz newsz = deallocEach ph d oldsz newsz := by
  rw [deallocuvm, deallocEach]
  split
  · rfl
  · rw [deallocLoop_each ph d ho (by unfold PGROUNDUP PGSIZE; omega)
      (by unfold PGROUNDUP PGSIZE; omega)]
    have hround : PGROUNDUP newsz/PGSIZE = pageCount newsz := by
      unfold PGROUNDUP pageCount PGSIZE
      omega
    rw [hround]
    rfl

/-! ## What the plain loop does -/

def mappedFrames (d : PageDir) (l : List ℕ) : List ℕ :=
  l.filterMap fun v =>
    if has (d.leaf (v*PGSIZE)) PTE_P then some (pteFrame (d.leaf (v*PGSIZE))) else none

/-- The counter of a frame after it was counted down `n` times. -/
def countDown (n : ℕ) (z : ℤ) : ℤ := (fun z => toChar (z-1))^[n] z

/-- The frames whose counter comes to zero while the list is counted down. -/
def released : (ℕ → ℤ) → List ℕ → List ℕ
  | _, [] => []
  | c, f::fs =>
    if toChar (c f-1) = 0 then f::released (Function.update c f (toChar (c f-1))) fs
    else released (Function.update c f (toChar (c f-1))) fs

theorem released_subset (c : ℕ → ℤ) (l : List ℕ) : released c l ⊆ l := by
  induction l generalizing c with
  | nil => exact List.Subset.refl _
  | cons f fs ih =>
    rw [released]
    split
    · exact List.cons_subset_cons f (ih _)
    · exact List.subset_cons_of_subset f (ih _)

/-- What unmapping the pages of a list comes to. -/
structure Dropped (l : List ℕ) (ph : Phys) (d : PageDir) (ph' : Phys) (d' : PageDir) : Prop where
  leaf : ∀ va < 2^32, d'.leaf va =
    if va/PGSIZE ∈ l ∧ has (d.leaf va) PTE_P = true then 0#32 else d.leaf va
  count : ∀ f, ph'.pgRefcount f = countDown ((mappedFrames d l).count f) (ph.pgRefcount f)
  free : ph'.freelist = (released ph.pgRefcount (mappedFrames d l)).reverse++ph.freelist
  mem : ∀ f, f ∉ released ph.pgRefcount (mappedFrames d l) → ph'.mem f = ph.mem f
  frames : d'.frames = d.frames

theorem dropRef_inRange (ph : Phys) {f : ℕ} (hf : InRange f) : ∃ ph', dropRef ph f = .ok ph' ∧
    ph'.pgRefcount = Function.update ph.pgRefcount f (toChar (ph.pgRefcount f-1)) ∧
    (ph'.freelist = if toChar (ph.pgRefcount f-1) = 0 then f::ph.freelist else ph.freelist) ∧
    ∀ x, x ≠ f ∨ toChar (ph.pgRefcount f-1) ≠ 0 → ph'.mem x = ph.mem x := by
  rw [dropRef, decRef_self]
  split
  · next h0 =>
    rw [kfree, if_pos hf]
    exact ⟨_,rfl,rfl,rfl,fun x hx => Function.update_of_ne (hx.resolve_right fun h => h h0) ..⟩
  · exact ⟨_,rfl,rfl,rfl,fun _ _ => rfl⟩

theorem addr_of_inRange {p : Pte} (h : InRange (pteFrame p)) : pteAddr p ≠ 0#32 := by
  intro h0
  have hz : pteFrame p = 0 := by
    rw [pteFrame, h0]
    rfl
  have hpos := inRange_pos h
  omega

theorem dropPages {l : List ℕ} (ph : Phys) (d : PageDir) (hn : l.Nodup) (hl : ∀ v ∈ l, v < UPAGES)
    (hin : ∀ v ∈ l, has (d.leaf (v*PGSIZE)) PTE_P = true → InRange (pteFrame (d.leaf (v*PGSIZE)))) :
    ∃ ph' d', l.foldlM dropPage (ph, d) = .ok (ph', d') ∧ Dropped l ph d ph' d' := by
  induction l generalizing ph d with
  | nil => exact ⟨ph,d,rfl,⟨by simp,fun _ => rfl,rfl,fun _ _ => rfl,rfl⟩⟩
  | cons v l ih =>
    obtain ⟨hv,hl⟩ := List.forall_mem_cons.mp hl
    obtain ⟨hvl,hn⟩ := List.nodup_cons.mp hn
    obtain ⟨hinv,hin⟩ := List.forall_mem_cons.mp hin
    have hk := page_addr hv
    have h32 : v*PGSIZE < 2^32 := by unfold KERNBASE at hk; omega
    have hdiv : v*PGSIZE/PGSIZE = v := Nat.mul_div_cancel v (by decide)
    rw [List.foldlM_cons]
    by_cases hP : has (d.leaf (v*PGSIZE)) PTE_P = true
    · have hw := walk_of_present hP
      have hr := hinv hP
      obtain ⟨ph1,h1,hc1,hf1,hm1⟩ := dropRef_inRange ph hr
      have hstep : dropPage (ph, d) v = .ok (ph1, d.setPte (v*PGSIZE) 0#32) := by
        rw [dropPage, hw]
        dsimp only
        rw [if_pos hP, if_neg (addr_of_inRange hr), h1]
        rfl
      have hset : ∀ va < 2^32, (d.setPte (v*PGSIZE) 0#32).leaf va =
          if va/PGSIZE = v then 0#32 else d.leaf va := by
        intro va hva
        rw [setPte_leaf d _ va _ _ h32 hva hw, hdiv]
      have hframes : mappedFrames (d.setPte (v*PGSIZE) 0#32) l = mappedFrames d l := by
        refine Tally.filterMap_congr_on fun w hmem => ?_
        have hwk := page_addr (hl w hmem)
        have hne : w ≠ v := fun he => hvl (he ▸ hmem)
        rw [hset (w*PGSIZE) (by unfold KERNBASE at hwk; omega), Nat.mul_div_cancel w (by decide),
          if_neg hne]
      have hmapped : mappedFrames d (v::l) = pteFrame (d.leaf (v*PGSIZE))::mappedFrames d l := by
        rw [mappedFrames, List.filterMap_cons, if_pos hP]
        rfl
      obtain ⟨ph',d',h',hd⟩ := ih ph1 (d.setPte (v*PGSIZE) 0#32) hn hl (fun w hw hPw => by
        have hwk := page_addr (hl w hw)
        rw [hset (w*PGSIZE) (by unfold KERNBASE at hwk; omega)] at hPw ⊢
        split at hPw
        · rw [zero_P] at hPw
          cases hPw
        · next hne =>
          rw [if_neg hne]
          exact hin w hw hPw)
      refine ⟨ph',d',by rw [hstep]; exact h',⟨fun va hva => ?_,fun f => ?_,?_,fun f hf => ?_,
        hd.frames.trans (setPte_frames d _ _)⟩⟩
      · rw [hd.leaf va hva, hset va hva]
        by_cases he : va/PGSIZE = v
        · have hva' : d.leaf va = d.leaf (v*PGSIZE) := by rw [← leaf_page, he]
          rw [if_pos he, hva', zero_P]
          simp [he, hP]
        · simp [he]
      · rw [hd.count f, hframes, hc1, hmapped, countDown, countDown]
        by_cases hf : f = pteFrame (d.leaf (v*PGSIZE))
        · rw [hf, Function.update_self, List.count_cons_self, Function.iterate_succ_apply]
        · rw [Function.update_of_ne hf, List.count_cons_of_ne (Ne.symm hf)]
      · rw [hd.free, hframes, hc1, hf1, hmapped, released]
        split
        · rw [List.reverse_cons, List.append_assoc, List.singleton_append]
        · rfl
      · rw [hmapped, released] at hf
        split at hf
        · rw [List.mem_cons, not_or] at hf
          rw [hd.mem f (by rw [hframes, hc1]; exact hf.2), hm1 f (Or.inl hf.1)]
        · next h0 => rw [hd.mem f (by rw [hframes, hc1]; exact hf), hm1 f (Or.inr h0)]
    · have hstep : dropPage (ph, d) v = .ok (ph, d) := by
        rw [dropPage]
        split
        · rfl
        · next p hw =>
          rw [leaf_of_walk hw] at hP
          rw [if_neg hP]
      have hmapped : mappedFrames d (v::l) = mappedFrames d l := by
        rw [mappedFrames, List.filterMap_cons, if_neg hP]
        rfl
      obtain ⟨ph',d',h',hd⟩ := ih ph d hn hl hin
      refine ⟨ph',d',by rw [hstep]; exact h',⟨fun va hva => ?_,fun f => ?_,?_,fun f hf => ?_,hd.frames⟩⟩
      · rw [hd.leaf va hva]
        by_cases he : va/PGSIZE = v
        · have hva' : d.leaf va = d.leaf (v*PGSIZE) := by rw [← leaf_page, he]
          rw [hva']
          simp [hP]
        · simp [he]
      · rw [hd.count f, hmapped]
      · rw [hd.free, hmapped]
      · rw [hd.mem f (by rwa [← hmapped])]

/-- A present user page of an arbitrary directory has a frame that the allocator manages. -/
def Managed (d : PageDir) : Prop :=
  ∀ v < UPAGES, has (d.leaf (v*PGSIZE)) PTE_P = true → InRange (pteFrame (d.leaf (v*PGSIZE)))

theorem pagesOf_mem {oldsz newsz v : ℕ} :
    v ∈ pagesOf oldsz newsz ↔ PGROUNDUP newsz ≤ v*PGSIZE ∧ v*PGSIZE < oldsz := by
  rw [pagesOf, List.mem_range'_1]
  unfold pageCount PGROUNDUP PGSIZE
  omega

theorem pagesOf_lt {oldsz newsz v : ℕ} (ho : oldsz ≤ KERNBASE) (hv : v ∈ pagesOf oldsz newsz) :
    v < UPAGES := by
  have := (pagesOf_mem.mp hv).2
  unfold UPAGES PGSIZE KERNBASE at *
  omega

theorem deallocuvm_drops (ph : Phys) (d : PageDir) (oldsz newsz : ℕ) (hn : newsz < oldsz)
    (ho : oldsz ≤ KERNBASE) (hd : ∀ v ∈ pagesOf oldsz newsz,
      has (d.leaf (v*PGSIZE)) PTE_P = true → InRange (pteFrame (d.leaf (v*PGSIZE)))) :
    ∃ ph' d', deallocuvm ph d oldsz newsz = .ok (ph', d', newsz) ∧
      Dropped (pagesOf oldsz newsz) ph d ph' d' := by
  obtain ⟨ph',d',h,hdrop⟩ := dropPages ph d List.nodup_range' (fun v hv => pagesOf_lt ho hv) hd
  refine ⟨ph',d',?_,hdrop⟩
  rw [deallocuvm_each ph d newsz ho, deallocEach, if_neg (by omega), pagesOf, h]
  rfl

/-- `deallocuvm` does what the plain loop does: it returns, unmaps the present pages of the
range and no others, counts each of their frames down once and frees those whose count
comes to zero. -/
theorem deallocuvm_page_by_page (ph : Phys) (d : PageDir) {oldsz newsz : ℕ} (hd : Managed d)
    (hn : newsz < oldsz) (ho : oldsz ≤ KERNBASE) :
    deallocuvm ph d oldsz newsz = deallocEach ph d oldsz newsz ∧
    ∃ ph' d', deallocuvm ph d oldsz newsz = .ok (ph', d', newsz) ∧
      (∀ va < 2^32, d'.leaf va = if PGROUNDUP newsz ≤ va/PGSIZE*PGSIZE ∧ va/PGSIZE*PGSIZE < oldsz ∧
        has (d.leaf va) PTE_P = true then 0#32 else d.leaf va) ∧
      (∀ f, ph'.pgRefcount f =
        countDown ((mappedFrames d (pagesOf oldsz newsz)).count f) (ph.pgRefcount f)) ∧
      ph'.freelist =
        (released ph.pgRefcount (mappedFrames d (pagesOf oldsz newsz))).reverse++ph.freelist := by
  obtain ⟨ph',d',h,hdrop⟩ := deallocuvm_drops ph d oldsz newsz hn ho fun v hv => hd v (pagesOf_lt ho hv)
  refine ⟨deallocuvm_each ph d newsz ho,ph',d',h,fun va hva => ?_,hdrop.count,hdrop.free⟩
  rw [hdrop.leaf va hva]
  simp only [pagesOf_mem, and_assoc]

/-- A directory whose user entries are all `p`. -/
def uniformDir (p : Pte) : PageDir := ⟨0x300, fun _ => some ⟨0x301, fun _ => p⟩⟩

/-- A machine without free pages in which every counter is one. -/
def onesPhys : Phys := ⟨[], fun _ => 1, fun _ _ => 0⟩

/-- The second of two pages is unmapped and freed. -/
theorem deallocuvm_page_by_page_one : Managed (uniformDir 0x200007#32) ∧
    ∃ ph' d', deallocuvm onesPhys (uniformDir 0x200007#32) (2*PGSIZE) 1 = .ok (ph', d', 1) ∧
      ph'.pgRefcount 0x200 = 0 ∧ ph'.freelist = [0x200] := by
  have hd : Managed (uniformDir 0x200007#32) :=
    fun v _ _ => show InRange (pteFrame 0x200007#32) by decide
  refine ⟨hd,?_⟩
  obtain ⟨-,ph',d',h,-,hc,hf⟩ := deallocuvm_page_by_page onesPhys (uniformDir 0x200007#32) hd
    (show 1 < 2*PGSIZE by decide) (by decide)
  exact ⟨ph',d',h,hc 0x200,hf⟩

/-- A frame with a non-zero address below the end of the kernel: its count comes to zero
and `kfree` panics. -/
theorem deallocuvm_foreign_frame : ∃ ph d,
    (∀ v < UPAGES, has (d.leaf (v*PGSIZE)) PTE_P = true → pteAddr (d.leaf (v*PGSIZE)) ≠ 0#32) ∧
    deallocuvm ph d PGSIZE 0 = .error (.panic "kfree") :=
  ⟨onesPhys,uniformDir 0x1007#32,fun _ _ _ => show pteAddr 0x1007#32 ≠ 0#32 by decide,rfl⟩

end Xv6.Dealloc
