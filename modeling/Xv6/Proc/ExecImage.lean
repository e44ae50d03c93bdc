import Xv6.Mem.AllocSpec
import Xv6.Mem.KernelMap
import Xv6.Mem.Release
import Xv6.Proc.ExecSpace

/-!
# A program image and where its pages come from

While `exec` builds an image, the frames of its pages, of its page tables and of its
directory are exactly those that have left the free list. `Holding` says so for a list of
page frames, and every step of the construction keeps it: growing appends zeroed frames to
the list, loading a segment stores bytes in them. `freevm` of such a directory gives
everything back. The bytes are followed along as a function of the address.
-/

set_option autoImplicit false

namespace Xv6.ExecImage
open Xv6.Mmu Xv6.Kalloc Xv6.Paging Xv6.Ledger Xv6.Uvm Xv6.Halting Xv6.GrowSpec
open Xv6.Supply Xv6.Dealloc Xv6.AllocSpec Xv6.Release Xv6.View Xv6.Exec

/-- The free pages are distinct pages of the allocator, and their counters are zero. -/
structure Stocked (ph : Phys) : Prop where
  nodup : ph.freelist.Nodup
  range : ∀ f ∈ ph.freelist, InRange f
  zero : ∀ f ∈ ph.freelist, ph.pgRefcount f = 0

/-- The directory has the page frames `gs` and owns all that is missing from the free list of
`ph₀`. -/
structure Holding (ph₀ ph : Phys) (d : PageDir) (gs : List ℕ) : Prop where
  taken : ph₀.freelist.Perm (gs++(d.frames++ph.freelist))
  count : ∀ f, ph.pgRefcount f = if f ∈ gs then 1 else ph₀.pgRefcount f
  mem : ∀ f, f ∉ ph₀.freelist → ph.mem f = ph₀.mem f
  small : gs.length ≤ UPAGES
  page : ∀ v (hv : v < gs.length), has (d.leaf (v*PGSIZE)) PTE_P = true ∧
    pteFrame (d.leaf (v*PGSIZE)) = gs.get ⟨v, hv⟩
  blank : ∀ v < UPAGES, gs.length ≤ v → has (d.leaf (v*PGSIZE)) PTE_P = false

def peek (ph : Phys) (d : PageDir) (a : ℕ) : UInt8 := ph.mem (pteFrame (d.leaf a)) (a%PGSIZE)

section
variable {ph₀ ph ph' : Phys} {d d' : PageDir} {gs : List ℕ}

theorem Holding.distinct (h : Holding ph₀ ph d gs) (hs : Stocked ph₀) :
    (gs++(d.frames++ph.freelist)).Nodup := h.taken.nodup_iff.mp hs.nodup

theorem Holding.fresh (h : Holding ph₀ ph d gs) {f : ℕ} (hf : f ∈ gs) : f ∈ ph₀.freelist :=
  h.taken.mem_iff.mpr (List.mem_append_left _ hf)

theorem Holding.nodup (h : Holding ph₀ ph d gs) (hs : Stocked ph₀) : gs.Nodup :=
  (List.nodup_append.mp (h.distinct hs)).1

theorem Holding.walk (h : Holding ph₀ ph d gs) {a : ℕ} (ha : a < gs.length*PGSIZE) :
    ∃ hv : a/PGSIZE < gs.length, d.walk a = some (d.leaf a) ∧ has (d.leaf a) PTE_P = true ∧
      pteFrame (d.leaf a) = gs.get ⟨a/PGSIZE, hv⟩ := by
  have hv : a/PGSIZE < gs.length := (Nat.div_lt_iff_lt_mul (by decide)).mpr ha
  have hp := h.page _ hv
  rw [leaf_page] at hp
  exact ⟨hv,walk_of_present hp.1,hp⟩

theorem Holding.extent (h : Holding ph₀ ph d gs) : MapsBelow d (gs.length*PGSIZE) := by
  intro v hv
  by_cases hlt : v < gs.length
  · have := (h.page v hlt).1
    unfold PGSIZE at *
    simp only [this, true_iff]
    omega
  · have := h.blank v hv (by omega)
    rw [this]
    unfold PGSIZE
    simp only [Bool.false_eq_true, false_iff]
    omega

theorem Holding.spare (h : Holding ph₀ ph d gs) (hs : Stocked ph₀) : Spare ph d := by
  have hnd := h.distinct hs
  have hin : ∀ f ∈ ph.freelist, f ∈ ph₀.freelist := fun f hf =>
    h.taken.mem_iff.mpr (by simp [hf])
  have hout : ∀ f ∈ ph.freelist, f ∉ gs := fun f hf hg =>
    (List.nodup_append.mp hnd).2.2 f hg f (List.mem_append_right _ hf) rfl
  refine ⟨(List.nodup_append.mp (List.nodup_append.mp hnd).2.1).2.1,fun f hf => hs.range f (hin f hf),
    fun f hf => ?_,fun v hv hP => ?_⟩
  · rw [h.count f, if_neg (hout f hf), hs.zero f (hin f hf)]
  · by_cases hlt : v < gs.length
    · rw [(h.page v hlt).2]
      exact fun hf => hout _ hf (gs.get_mem _)
    · rw [h.blank v hv (by omega)] at hP
      cases hP

theorem userFrames_filled (hsmall : gs.length ≤ UPAGES)
    (hpage : ∀ v (hv : v < gs.length), has (d.leaf (v*PGSIZE)) PTE_P = true ∧
      pteFrame (d.leaf (v*PGSIZE)) = gs.get ⟨v, hv⟩)
    (hblank : ∀ v < UPAGES, gs.length ≤ v → has (d.leaf (v*PGSIZE)) PTE_P = false) :
    userFrames d = gs := by
  have hmin : min UPAGES gs.length-0 = gs.length := by
    rw [min_eq_right hsmall, Nat.sub_zero]
  have hpages : pagesOf KERNBASE 0 = List.range' 0 (UPAGES-0) := rfl
  rw [Release.userFrames, mappedFrames, hpages, pages_split (Nat.zero_le gs.length), hmin,
    List.filterMap_append, filterMap_range' fun i hi => ?_,
    List.filterMap_eq_nil_iff.mpr fun v hv => ?_, List.append_nil]
  · obtain ⟨h1,h2⟩ := List.mem_range'_1.mp hv
    rw [hblank v (by omega) h1, if_neg (by decide)]
  · rw [Nat.zero_add, (hpage i hi).1, if_pos rfl, (hpage i hi).2]

theorem Holding.userFrames (h : Holding ph₀ ph d gs) : userFrames d = gs :=
  userFrames_filled h.small h.page h.blank

theorem Holding.free (h : Holding ph₀ ph d gs) (hs : Stocked ph₀) :
    ∃ ph', freevm ph d = .ok ph' ∧ GivenBack ph₀ ph' := by
  have hframes := h.userFrames
  have hnd := h.nodup hs
  have hin : ∀ f ∈ d.frames, f ∈ ph₀.freelist := fun f hf =>
    h.taken.mem_iff.mpr (List.mem_append_right _ (List.mem_append_left _ hf))
  have hone : ∀ f ∈ gs, ph.pgRefcount f = 1 := fun f hf => by rw [h.count f, if_pos hf]
  have hmanaged : Managed d := by
    intro v hv hP
    by_cases hlt : v < gs.length
    · rw [(h.page v hlt).2]
      exact hs.range _ (h.fresh (gs.get_mem _))
    · rw [h.blank v hv (by omega)] at hP
      cases hP
  have hrel : released ph.pgRefcount gs = gs := released_all hnd fun f hf => by
    rw [hone f hf]
    rfl
  obtain ⟨ph',hrun,hfree,hcount,hmem⟩ := freevm_drops ph hmanaged fun f hf => hs.range f (hin f hf)
  rw [hframes] at hfree hcount hmem
  rw [hrel] at hfree hmem
  refine ⟨ph',hrun,hfree.trans ?_,funext fun f => ?_,fun f hf => ?_⟩
  · rw [← List.append_assoc]
    refine (List.perm_append_comm.append_right _).trans ?_
    rw [List.append_assoc]
    exact h.taken.symm
  · rw [hcount f]
    by_cases hf : f ∈ gs
    · rw [List.count_eq_one_of_mem hnd hf, hone f hf, hs.zero f (h.fresh hf)]
      rfl
    · rw [List.count_eq_zero_of_not_mem hf, h.count f, if_neg hf]
      rfl
  · rw [hmem f (fun hc => hf (hin f hc)) (fun hc => hf (h.fresh hc)), h.mem f hf]

theorem Holding.writes (h : Holding ph₀ ph d gs) (hw : WritesOnly ph ph')
    (hm : ∀ f, f ∉ gs → ph'.mem f = ph.mem f) : Holding ph₀ ph' d gs := by
  refine ⟨by rw [hw.1]; exact h.taken,fun f => by rw [hw.2]; exact h.count f,fun f hf => ?_,
    h.small,h.page,h.blank⟩
  rw [hm f (fun hg => hf (h.fresh hg)), h.mem f hf]

theorem Holding.relabel (h : Holding ph₀ ph d gs) {va : ℕ} {p q : Pte} (hva : va < KERNBASE)
    (hw : d.walk va = some p) (hP : has q PTE_P = has p PTE_P) (hf : pteFrame q = pteFrame p) :
    Holding ph₀ ph (d.setPte va q) gs := by
  have hleaf : ∀ v < UPAGES, has ((d.setPte va q).leaf (v*PGSIZE)) PTE_P = has (d.leaf (v*PGSIZE)) PTE_P ∧
      pteFrame ((d.setPte va q).leaf (v*PGSIZE)) = pteFrame (d.leaf (v*PGSIZE)) := by
    intro v hv
    rw [setPte_leaf_page d va v p q hva hv hw]
    split
    · next he => rw [he, leaf_page, leaf_of_walk hw, hP, hf]; exact ⟨rfl,rfl⟩
    · exact ⟨rfl,rfl⟩
  have hsmall := h.small
  refine ⟨by rw [setPte_frames]; exact h.taken,h.count,h.mem,h.small,fun v hv => ?_,fun v hv hl => ?_⟩
  · obtain ⟨h1,h2⟩ := hleaf v (by omega)
    rw [h1, h2]
    exact h.page v hv
  · rw [(hleaf v hv).1]
    exact h.blank v hv hl

theorem Holding.mapped (h : Holding ph₀ ph d gs) (hs : Stocked ph₀) {fs ts : List ℕ} {newsz : ℕ}
    (hn : newsz ≤ KERNBASE)
    (hm : Mapped ph d (gs.length*PGSIZE) (PGROUNDUP newsz) ph' d' fs ts) :
    Holding ph₀ ph' d' (gs++fs) := by
  have hpages := hm.pages
  have hlen : gs.length+fs.length = pageCount newsz := by
    unfold PGROUNDUP pageCount PGSIZE at *
    omega
  have hspare := h.spare hs
  refine ⟨?_,fun f => ?_,fun f hf => ?_,?_,fun v hv => ?_,fun v hv hl => ?_⟩
  · refine h.taken.trans ?_
    rw [List.append_assoc]
    refine List.Perm.append_left gs ?_
    refine (hm.taken.append_left d.frames).trans ?_
    refine (List.perm_append_comm_assoc d.frames fs _).trans (List.Perm.append_left fs ?_)
    rw [← List.append_assoc]
    exact (List.perm_append_comm.trans hm.tables.symm).append_right _
  · rw [hm.count f]
    by_cases hf : f ∈ fs
    · rw [if_pos hf, if_pos (List.mem_append_right gs hf), hspare.zero f (hm.fresh hf)]
      rfl
    · rw [if_neg hf, h.count f]
      simp [hf]
  · have hff : f ∉ fs := fun hm' => hf (h.taken.mem_iff.mpr (by simp [hm.fresh hm']))
    rw [hm.mem f, if_neg hff, h.mem f hf]
  · rw [List.length_append, hlen, UPAGES_eq]
    unfold pageCount PGSIZE KERNBASE at *
    omega
  · rw [List.length_append] at hv
    have hv32 : v*PGSIZE < 2^32 := by
      unfold PGROUNDUP PGSIZE KERNBASE at *
      omega
    by_cases hlt : v < gs.length
    · rw [hm.outside _ hv32 (Or.inl (Nat.mul_lt_mul_of_pos_right hlt (by decide))), List.get_eq_getElem,
        List.getElem_append_left hlt]
      exact h.page v hlt
    · have hi : v-gs.length < fs.length := by omega
      have hin := hm.inside _ hi
      rw [← Nat.add_mul, Nat.add_sub_of_le (Nat.not_lt.mp hlt)] at hin
      rw [hin, userEntry_frame (hspare.range _ (hm.fresh (fs.get_mem _)))]
      refine ⟨userEntry_P _,?_⟩
      rw [List.get_eq_getElem, List.get_eq_getElem, List.getElem_append_right (Nat.not_lt.mp hlt)]
  · rw [List.length_append, hlen] at hl
    have hvk := page_addr hv
    rw [hm.outside _ (by unfold KERNBASE at hvk; omega)
      (Or.inr (by unfold PGROUNDUP pageCount PGSIZE at *; omega))]
    exact h.blank v hv (by omega)

/-- What `allocuvm` does to an image: it grows by zeroed pages that user code may use, or it
fails and the image is as it was but for page tables. -/
theorem Holding.grow (h : Holding ph₀ ph d gs) (hs : Stocked ph₀) {oldsz newsz : ℕ}
    (hold : pageCount oldsz = gs.length) (ho : oldsz ≤ newsz) (hn : newsz < KERNBASE) :
    ∃ ph' d' r, allocuvm ph d oldsz newsz = .ok (ph', d', r) ∧
      ((r = newsz ∧ ∃ fs, Holding ph₀ ph' d' (gs++fs) ∧ (gs++fs).length = pageCount newsz ∧
        (∀ f ∈ fs, ph'.mem f = fun _ => 0) ∧ (∀ f ∈ gs, ph'.mem f = ph.mem f) ∧
        (∀ va < 2^32, va < gs.length*PGSIZE ∨ PGROUNDUP newsz ≤ va → d'.leaf va = d.leaf va) ∧
        ∀ va, gs.length*PGSIZE ≤ va → va < PGROUNDUP newsz → has (d'.leaf va) PTE_U = true) ∨
      (r = 0 ∧ Holding ph₀ ph' d' gs)) := by
  have hspare := h.spare hs
  have hround : PGROUNDUP oldsz = gs.length*PGSIZE := by
    rw [← hold]
    rfl
  have hbelow : MapsBelow d oldsz := by
    intro v hv
    rw [h.extent v hv, ← hround]
    unfold PGROUNDUP PGSIZE
    omega
  rw [allocuvm, if_neg (by omega), if_neg (by omega)]
  obtain ⟨ph',d',r,hrun,hcase⟩ := allocLoop_outcome (n := newsz/PGSIZE+1) hspare hbelow hn.le
    (Mapped.refl ph d _) (by unfold PGROUNDUP PGSIZE; omega) (by unfold PGROUNDUP PGSIZE; omega)
  rw [hround] at hcase
  refine ⟨ph',d',r,by rw [hround] at hrun ⊢; exact hrun,?_⟩
  rcases hcase with ⟨hr,fs,ts,hm⟩ | ⟨hr,hres⟩
  · have hpages := hm.pages
    refine Or.inl ⟨hr,fs,h.mapped hs hn.le hm,?_,fun f hf => by rw [hm.mem f, if_pos hf],
      fun f hf => ?_,hm.outside,fun va h1 h2 => ?_⟩
    · rw [List.length_append]
      unfold PGROUNDUP pageCount PGSIZE at *
      omega
    · have hff : f ∉ fs := fun hc => (List.nodup_append.mp (h.distinct hs)).2.2 f hf f
        (List.mem_append_right _ (hm.fresh hc)) rfl
      rw [hm.mem f, if_neg hff]
    · rcases hm.leaf_cases (Nat.mul_mod_left _ _)
        (show va < 2^32 by unfold PGROUNDUP PGSIZE KERNBASE at *; omega) with ⟨f,-,-,-,hl⟩ | ⟨hc,-⟩
      · rw [hl, userEntry, entry_U]
        rfl
      · omega
  · refine Or.inr ⟨hr,?_⟩
    obtain ⟨ts,hfree,hframes⟩ := hres.free
    have hin : ∀ f ∈ ph.freelist, f ∈ ph₀.freelist := fun f hf =>
      h.taken.mem_iff.mpr (by simp [hf])
    refine ⟨?_,fun f => by rw [hres.count]; exact h.count f,fun f hf => ?_,h.small,fun v hv => ?_,
      fun v hv hl => ?_⟩
    · refine h.taken.trans (List.Perm.append_left gs ?_)
      refine (hfree.append_left d.frames).trans ?_
      rw [← List.append_assoc]
      exact (List.perm_append_comm.trans hframes.symm).append_right _
    · rw [hres.contents f (fun hc => hf (hin f hc)), h.mem f hf]
    · have hsmall := h.small
      have hvk := page_addr (show v < UPAGES by omega)
      rw [(hres.leaf _ (by unfold KERNBASE at hvk; omega)).2 (h.page v hv).1]
      exact h.page v hv
    · have hvk := page_addr hv
      rw [(hres.leaf _ (by unfold KERNBASE at hvk; omega)).1]
      exact h.blank v hv hl

/-! ## Loading -/

theorem Holding.peek (h : Holding ph₀ ph d gs) (ph' : Phys) {a : ℕ} (ha : a < gs.length*PGSIZE) :
    ∃ hv : a/PGSIZE < gs.length, peek ph' d a = ph'.mem (gs.get ⟨a/PGSIZE, hv⟩) (a%PGSIZE) := by
  obtain ⟨hv,-,-,hf⟩ := h.walk ha
  exact ⟨hv,by rw [ExecImage.peek, hf]⟩

/-- The bytes of a segment over those that were there. -/
def overlay (file : List UInt8) (addr offset sz : ℕ) (c : ℕ → UInt8) (a : ℕ) : UInt8 :=
  if addr ≤ a ∧ a < addr+sz then file.getD (offset+(a-addr)) 0 else c a

/-- An image of `sz` bytes with the contents `c`. -/
structure Loaded (ph₀ ph : Phys) (d : PageDir) (sz : ℕ) (c : ℕ → UInt8) (gs : List ℕ) : Prop where
  holds : Holding ph₀ ph d gs
  pages : pageCount sz = gs.length
  low : sz < KERNBASE
  bytes : ∀ a < gs.length*PGSIZE, ExecImage.peek ph d a = c a
  above : ∀ a, sz ≤ a → c a = 0
  kernel : ∀ va, KERNBASE ≤ va → va < 2^32 → d.leaf va = KernelHalf.kernelLeaf va

theorem Loaded.grow {sz newsz : ℕ} {c : ℕ → UInt8} (h : Loaded ph₀ ph d sz c gs) (hs : Stocked ph₀)
    (ho : sz ≤ newsz) (hn : newsz < KERNBASE) :
    ∃ ph' d' r, allocuvm ph d sz newsz = .ok (ph', d', r) ∧
      ((r = newsz ∧ ∃ fs, Loaded ph₀ ph' d' newsz c (gs++fs) ∧
        (∀ va < 2^32, va < gs.length*PGSIZE ∨ PGROUNDUP newsz ≤ va → d'.leaf va = d.leaf va) ∧
        ∀ va, gs.length*PGSIZE ≤ va → va < PGROUNDUP newsz → has (d'.leaf va) PTE_U = true) ∨
      (r = 0 ∧ Holding ph₀ ph' d' gs)) := by
  have hpages := h.pages
  obtain ⟨ph',d',r,hrun,hcase⟩ := h.holds.grow hs h.pages ho hn
  refine ⟨ph',d',r,hrun,?_⟩
  rcases hcase with ⟨hr,fs,hh,hlen,hnew,hold,hleaf,hU⟩ | hfail
  · refine Or.inl ⟨hr,fs,⟨hh,hlen.symm,hn,fun a ha => ?_,fun a ha => h.above a (ho.trans ha),
      fun va hva hlt => ?_⟩,hleaf,hU⟩
    rotate_left
    · rw [hleaf va hlt (Or.inr (by unfold PGROUNDUP PGSIZE KERNBASE at *; omega)), h.kernel va hva hlt]
    obtain ⟨hv,hpeek⟩ := hh.peek ph' ha
    rw [hpeek]
    by_cases hlt : a < gs.length*PGSIZE
    · obtain ⟨hv',hpeek'⟩ := h.holds.peek ph hlt
      have hget : (gs++fs).get ⟨a/PGSIZE, hv⟩ = gs.get ⟨a/PGSIZE, hv'⟩ := by
        rw [List.get_eq_getElem, List.get_eq_getElem, List.getElem_append_left hv']
      rw [hget, hold _ (gs.get_mem _), ← hpeek', h.bytes a hlt]
    · have hle : gs.length ≤ a/PGSIZE := by
        rw [Nat.le_div_iff_mul_le (by decide)]
        omega
      have hmem : (gs++fs).get ⟨a/PGSIZE, hv⟩ ∈ fs := by
        rw [List.get_eq_getElem, List.getElem_append_right hle]
        exact List.getElem_mem _
      rw [hnew _ hmem, h.above a (by unfold pageCount PGSIZE at *; omega)]
  · exact Or.inr hfail

def withSegment (file : List UInt8) (h : Proghdr) (c : ℕ → UInt8) : ℕ → UInt8 :=
  if h.type = ELF_PROG_LOAD then overlay file h.vaddr h.off h.filesz c else c

/-- The program headers of the file, as far as they can be read. -/
def headers (file : List UInt8) : ℕ → ℕ → List Proghdr
  | 0, _ => []
  | n+1, off =>
    match readAll file off proghdrSize with
    | none => []
    | some bytes => proghdr bytes::headers file n ((off+proghdrSize)%2^32)

end

end Xv6.ExecImage
