import Xv6.Mem.AllocSpec
import Xv6.Mem.KernelHalf
import Xv6.Mem.Release

/-!
# A copy-on-write fork that runs out of memory

`copyuvmcow` takes the pages of the parent one after the other: it clears `PTE_W`, maps the
frame in the child, counts it and sets `PTE_COW`. When the child's directory cannot grow,
`freevm` of the child counts the shared frames down again. Each of them is still mapped by
the parent, so none is freed, and what stays behind are the entries of the parent that have
lost `PTE_W`. With exact counters the next store to such a page gives it back, unless user
code cannot reach the page.
-/

set_option autoImplicit false

namespace Xv6.CowUndo
open Xv6.Mmu Xv6.Kalloc Xv6.Paging Xv6.Ledger Xv6.Uvm Xv6.Halting Xv6.MapSpec Xv6.GrowSpec
open Xv6.Supply Xv6.Dealloc Xv6.AllocSpec Xv6.Release Xv6.View Xv6.Tally

/-- The frames of the first `w` pages. -/
def copied (d : PageDir) (w : ℕ) : List ℕ := (List.range w).map fun v => pteFrame (d.leaf (v*PGSIZE))

theorem copied_succ (d : PageDir) (w : ℕ) :
    copied d (w+1) = copied d w++[pteFrame (d.leaf (w*PGSIZE))] := by
  rw [copied, List.range_succ, List.map_append]
  rfl

theorem copied_length (d : PageDir) (w : ℕ) : (copied d w).length = w := by
  rw [copied, List.length_map, List.length_range]

theorem copied_get (d : PageDir) (w v : ℕ) (hv : v < (copied d w).length) :
    (copied d w).get ⟨v, hv⟩ = pteFrame (d.leaf (v*PGSIZE)) := by
  simp [copied]

theorem count_copied (d : PageDir) (w f : ℕ) : (copied d w).count f =
    tally (Finset.range w) (fun v => pteFrame (d.leaf (v*PGSIZE)) = f) := by
  induction w with
  | zero => rfl
  | succ w ih =>
    rw [copied_succ, List.count_append, ih, tally, tally, Finset.range_add_one, Finset.filter_insert]
    by_cases hf : pteFrame (d.leaf (w*PGSIZE)) = f
    · rw [if_pos hf, Finset.card_insert_of_notMem (by simp), hf]
      simp
    · rw [if_neg hf, List.count_singleton, if_neg (by simpa using hf), Nat.add_zero]

theorem count_copied_le {d : PageDir} {w : ℕ} (hw : w ≤ UPAGES)
    (hp : ∀ v < w, has (d.leaf (v*PGSIZE)) PTE_P = true) (f : ℕ) :
    (copied d w).count f ≤ mapCnt d f := by
  rw [count_copied, mapCnt, tally, tally]
  refine Finset.card_le_card fun v hv => ?_
  rw [Finset.mem_filter, Finset.mem_range] at hv ⊢
  exact ⟨by omega,hp v hv.1,hv.2⟩

/-! ## Counting up and down -/

theorem countDown_toChar (n : ℕ) (z : ℤ) : countDown n (toChar z) = toChar (z-n) := by
  induction n with
  | zero => rw [Nat.cast_zero, Int.sub_zero]; rfl
  | succ n ih =>
    rw [countDown, Function.iterate_succ_apply', ← countDown, ih]
    unfold toChar
    push_cast
    omega

theorem released_none {c : ℕ → ℤ} {l : List ℕ}
    (h : ∀ f ∈ l, ∀ j < l.count f, toChar (c f-(j+1)) ≠ 0) : released c l = [] := by
  induction l generalizing c with
  | nil => rfl
  | cons f l ih =>
    have h0 : toChar (c f-1) ≠ 0 := by
      have := h f List.mem_cons_self 0 (by rw [List.count_cons_self]; omega)
      simpa using this
    rw [released, if_neg h0]
    refine ih fun g hg j hj => ?_
    by_cases hgf : g = f
    · have := h f List.mem_cons_self (j+1) (by rw [List.count_cons_self, ← hgf]; omega)
      rw [hgf, Function.update_self]
      intro hz
      refine this ?_
      rw [← hz]
      unfold toChar
      push_cast
      omega
    · rw [Function.update_of_ne hgf]
      exact h g (List.mem_cons_of_mem f hg) j (by rwa [List.count_cons_of_ne (Ne.symm hgf)])

/-! ## The copy and its undo -/

/-- The counters are the numbers of user mappings; free pages are the allocator's and are not
mapped, and a writable page of a process is mapped nowhere else. -/
structure Exact (ph : Phys) (ds : List PageDir) : Prop where
  char : ∀ f, toChar (ph.pgRefcount f) = ph.pgRefcount f
  counted : ∀ f, ph.pgRefcount f = maps ds f
  range : ∀ f ∈ ph.freelist, InRange f
  apart : ∀ f ∈ ph.freelist, maps ds f = 0
  managed : ∀ d ∈ ds, Managed d
  sole : ∀ d ∈ ds, ∀ v < UPAGES, has (d.leaf (v*PGSIZE)) PTE_P = true →
    has (d.leaf (v*PGSIZE)) PTE_W = true → maps ds (pteFrame (d.leaf (v*PGSIZE))) = 1

theorem Exact.of_books {g : Ghost} {ph : Phys} {ds : List PageDir} {own : List ℕ}
    (hb : Books g ph ds own) (hu : ∀ f, g.u f = 0) (hlen : ds.length ≤ 127) : Exact ph ds := by
  have hcount : ∀ f, ph.pgRefcount f = maps ds f := by
    intro f
    have := hb.counted f
    rw [hu] at this
    omega
  have hfree : ∀ f ∈ ph.freelist, InRange f ∧ maps ds f = 0 := by
    intro f hf
    have hpos := List.count_pos_iff.mpr hf
    have hw := hb.within f
    rw [held, kept] at hw
    by_cases hr : InRange f
    · refine ⟨hr,?_⟩
      rw [if_pos hr] at hw
      split at hw <;> omega
    · rw [if_neg hr] at hw
      omega
  refine ⟨fun f => ?_,hcount,fun f hf => (hfree f hf).1,fun f hf => (hfree f hf).2,?_,hb.priv⟩
  · have hle := maps_le_length f fun d hd => hb.inj d hd f
    rw [hcount]
    unfold toChar
    omega
  · intro d hd v hv hP
    have hpos : 0 < mapCnt d (pteFrame (d.leaf (v*PGSIZE))) :=
      (tally_pos _ _).mpr ⟨v,Finset.mem_range.mpr hv,hP,rfl⟩
    have hmaps := lt_of_lt_of_le hpos (mapCnt_le_maps hd _)
    have hw := hb.within (pteFrame (d.leaf (v*PGSIZE)))
    rw [held, if_pos hmaps] at hw
    split at hw
    · assumption
    · omega

/-- The loop has come to the page `w`: the child maps the frames in front of it. -/
structure Copying (ph₀ : Phys) (d₀ : PageDir) (w : ℕ) (ph : Phys) (d c : PageDir) : Prop where
  taken : ph₀.freelist.Perm (c.frames++ph.freelist)
  mem : ph.mem = ph₀.mem
  count : ∀ f, ph.pgRefcount f = toChar (ph₀.pgRefcount f+(copied d₀ w).count f)
  present : ∀ v < w, has (d₀.leaf (v*PGSIZE)) PTE_P = true
  child : ∀ v < UPAGES, c.leaf (v*PGSIZE) = if v < w then protect (d₀.leaf (v*PGSIZE)) else 0#32
  parent : ∀ v < UPAGES, d.leaf (v*PGSIZE) =
    if v < w then markCow (protect (d₀.leaf (v*PGSIZE))) else d₀.leaf (v*PGSIZE)

section
variable {ph₀ ph ph' : Phys} {d₀ d d' c : PageDir} {ds : List PageDir} {w n sz : ℕ}

theorem Copying.userFrames (h : Copying ph₀ d₀ w ph d c) (hw : w ≤ UPAGES) :
    userFrames c = copied d₀ w := by
  have hmin : min UPAGES w-0 = (copied d₀ w).length := by
    rw [copied_length, min_eq_right hw, Nat.sub_zero]
  have hpages : pagesOf KERNBASE 0 = List.range' 0 (UPAGES-0) := rfl
  rw [Release.userFrames, mappedFrames, hpages, pages_split (Nat.zero_le w), hmin,
    List.filterMap_append, filterMap_range' fun i hi => ?_,
    List.filterMap_eq_nil_iff.mpr fun v hv => ?_, List.append_nil]
  · obtain ⟨h1,h2⟩ := List.mem_range'_1.mp hv
    rw [h.child v (by omega), if_neg (show ¬ v < w by omega), zero_P, if_neg (by decide)]
  · have hiw : i < w := by rwa [copied_length] at hi
    rw [Nat.zero_add, h.child i (by omega), if_pos hiw, protect_P, if_pos (h.present i hiw),
      protect_frame, copied_get]

theorem Copying.undo (h : Copying ph₀ d₀ w ph d c) (hx : Exact ph₀ (d₀::ds)) (hw : w ≤ UPAGES) :
    ∃ ph', freevm ph c = .ok ph' ∧ GivenBack ph₀ ph' := by
  have hframes := h.userFrames hw
  have hin : ∀ f ∈ c.frames, f ∈ ph₀.freelist := fun f hf =>
    h.taken.mem_iff.mpr (List.mem_append_left _ hf)
  have hmanaged : Managed c := by
    intro v hv hP
    rw [h.child v hv] at hP ⊢
    split at hP
    · next hlt =>
      rw [if_pos hlt, protect_frame]
      exact hx.managed d₀ List.mem_cons_self v hv (h.present v hlt)
    · rw [zero_P] at hP
      cases hP
  -- a shared frame is still mapped by the parent, so its counter stays above zero
  have hnone : released ph.pgRefcount (copied d₀ w) = [] := by
    refine released_none fun f hf j hj hz => ?_
    have hle := count_copied_le hw h.present f
    have hmaps : mapCnt d₀ f ≤ maps (d₀::ds) f := mapCnt_le_maps List.mem_cons_self f
    have hc := hx.counted f
    have hch := hx.char f
    rw [h.count f] at hz
    unfold toChar at hz hch
    omega
  obtain ⟨ph',hrun,hfree,hcount,hmem⟩ := freevm_drops ph hmanaged fun f hf => hx.range f (hin f hf)
  rw [hframes] at hfree hcount hmem
  rw [hnone] at hfree hmem
  refine ⟨ph',hrun,hfree.trans h.taken.symm,funext fun f => ?_,fun f hf => ?_⟩
  · rw [hcount f, h.count f, countDown_toChar, Int.add_sub_cancel, hx.char f]
  · rw [hmem f (fun hc => hf (hin f hc)) List.not_mem_nil, h.mem]

theorem Copying.step {ph1 : Phys} {c1 : PageDir} {ts : List ℕ} (h : Copying ph₀ d₀ w ph d c)
    (hw : w < UPAGES) (hP : has (d₀.leaf (w*PGSIZE)) PTE_P = true)
    (hwalk : d.walk (w*PGSIZE) = some (d₀.leaf (w*PGSIZE))) (hts : ph.freelist = ts++ph1.freelist)
    (hpc : c1.frames.Perm (ts++c.frames)) (hr : ph1.pgRefcount = ph.pgRefcount)
    (hm : ph1.mem = ph.mem)
    (hl : ∀ va < 2^32, c1.leaf va = if va/PGSIZE = w*PGSIZE/PGSIZE then
      protect (d₀.leaf (w*PGSIZE)) else c.leaf va) :
    Copying ph₀ d₀ (w+1) (ph1.incRef (pteFrame (d₀.leaf (w*PGSIZE))))
      (d.setPte (w*PGSIZE) (markCow (protect (d₀.leaf (w*PGSIZE))))) c1 := by
  have hk := page_addr hw
  have hdiv : w*PGSIZE/PGSIZE = w := Nat.mul_div_cancel w (by decide)
  refine ⟨?_,?_,fun f => ?_,fun v hv => ?_,fun v hv => ?_,fun v hv => ?_⟩
  · refine h.taken.trans ?_
    rw [incRef_freelist, hts, ← List.append_assoc]
    exact (List.perm_append_comm.trans hpc.symm).append_right _
  · rw [incRef_mem, hm, h.mem]
  · rw [copied_succ, List.count_append, List.count_singleton]
    by_cases hf : f = pteFrame (d₀.leaf (w*PGSIZE))
    · rw [hf, incRef_self, hr, h.count]
      simp only [beq_self_eq_true, if_true]
      unfold toChar
      push_cast
      omega
    · rw [incRef_other ph1 hf, hr, h.count, if_neg (by simpa using Ne.symm hf), Nat.add_zero]
  · by_cases hvw : v < w
    · exact h.present v hvw
    · rw [show v = w by omega]
      exact hP
  · have hvk := page_addr hv
    rw [hl _ (by unfold KERNBASE at hvk; omega), hdiv, Nat.mul_div_cancel v (by decide)]
    by_cases hvw : v = w
    · rw [if_pos hvw, if_pos (by omega), hvw]
    · rw [if_neg hvw, h.child v hv]
      by_cases hlt : v < w
      · rw [if_pos hlt, if_pos (by omega)]
      · rw [if_neg hlt, if_neg (by omega)]
  · rw [setPte_leaf_page d _ v _ _ hk hv hwalk, hdiv]
    by_cases hvw : v = w
    · rw [if_pos hvw, if_pos (by omega), hvw]
    · rw [if_neg hvw, h.parent v hv]
      by_cases hlt : v < w
      · rw [if_pos hlt, if_pos (by omega)]
      · rw [if_neg hlt, if_neg (by omega)]

end

end Xv6.CowUndo
