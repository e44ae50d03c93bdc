import Xv6.Mem.CopySpec

/-!
# What a process sees of its memory

The view of a directory is the user page behind each page number, whatever
frame holds it. Sharing, write protection and counters do not show in it:
`copyuvmcow` gives the child the parent's view, `pagefault` changes no view, and
growing and shrinking change exactly the pages they are asked for.
-/

set_option autoImplicit false

namespace Xv6.View
open Xv6.Mmu Xv6.Kalloc Xv6.Paging Xv6.Ledger Xv6.Uvm Xv6.Halting Xv6.MapSpec Xv6.FreeSpec
open Xv6.GrowSpec Xv6.CopySpec

/-- A user page: whether user mode may use it, and its bytes. -/
abbrev Page := Bool × (ℕ → UInt8)

def seen (ph : Phys) (p : Pte) : Option Page :=
  if has p PTE_P then some (has p PTE_U, ph.mem (pteFrame p)) else none

def look (ph : Phys) (d : PageDir) (v : ℕ) : Option Page := seen ph (d.leaf (v*PGSIZE))

theorem seen_congr {ph ph' : Phys} {p q : Pte} (hP : has q PTE_P = has p PTE_P)
    (hU : has q PTE_U = has p PTE_U)
    (hm : has p PTE_P = true → ph'.mem (pteFrame q) = ph.mem (pteFrame p)) :
    seen ph' q = seen ph p := by
  rw [seen, seen, hP, hU]
  split
  · next h => rw [hm h]
  · rfl

theorem seen_absent {ph : Phys} {p : Pte} (h : has p PTE_P = false) : seen ph p = none := by
  rw [seen, h]
  rfl

theorem look_mem {ph ph' : Phys} {d : PageDir} {v : ℕ} (hv : v < UPAGES)
    (hm : ∀ x, 0 < mapCnt d x → ph'.mem x = ph.mem x) : look ph' d v = look ph d v :=
  seen_congr rfl rfl (fun hP => hm _ (mapCnt_pos hv ⟨hP,rfl⟩))

theorem page_addr {v : ℕ} (hv : v < UPAGES) : v*PGSIZE < KERNBASE := by
  rw [UPAGES_eq] at hv
  unfold KERNBASE PGSIZE
  omega

section
variable {g : Ghost} {rest : List PageDir} {own : List ℕ}

theorem deallocuvm_look {oldsz newsz r : ℕ} {ph ph' : Phys} {d d' : PageDir}
    (ho : oldsz ≤ KERNBASE) (hlen : rest.length ≤ 126) (hb : Books g ph (d::rest) own)
    (h : deallocuvm ph d oldsz newsz = .ok (ph', d', r)) {v : ℕ} (hv : v < UPAGES) :
    look ph' d' v = if newsz ≤ v*PGSIZE ∧ v*PGSIZE < oldsz then none else look ph d v := by
  have hl := deallocuvm_leaf ho h v hv
  obtain ⟨-,hmem⟩ := deallocuvm_books ho hlen hb h
  split at hl
  · next hin =>
    rw [if_pos hin, look, hl]
    exact seen_absent (cleared_P _)
  · next hin =>
    rw [if_neg hin, look, look, hl]
    refine seen_congr rfl rfl (fun hP => hmem _ ?_)
    have : 0 < mapCnt d' (pteFrame (d.leaf (v*PGSIZE))) :=
      mapCnt_pos hv (by rw [MapsTo, hl]; exact ⟨hP,rfl⟩)
    rw [maps_cons]
    omega

theorem free_fresh {ph : Phys} {ds : List PageDir} {f : ℕ} {fs : List ℕ}
    (hb : Books g ph ds own) (hl : ph.freelist = f::fs) : maps ds f = 0 ∧ InRange f := by
  obtain ⟨h1,-,h2,-,-⟩ := hb.idle (f := f) (by rw [kept, hl, List.count_cons_self]; omega)
  exact ⟨h2,h1⟩

theorem allocLoop_look {oldsz newsz n a r : ℕ} {ph ph' : Phys} {d d' : PageDir}
    (hn : newsz ≤ KERNBASE) (ha : a%PGSIZE = 0) (hfuel : newsz ≤ a+n*PGSIZE)
    (hb : Books g ph (d::rest) own) (hr : r ≠ 0)
    (h : allocLoop oldsz newsz n a ph d = .ok (ph', d', r)) :
    (∀ x, 0 < maps rest x → ph'.mem x = ph.mem x) ∧
      ∀ v < UPAGES, look ph' d' v = if a ≤ v*PGSIZE ∧ v*PGSIZE < newsz then
        some (true, fun _ => 0) else look ph d v := by
  induction n generalizing a ph d with
  | zero =>
    cases h
    exact ⟨fun _ _ => rfl,fun v _ => by rw [if_neg (by omega)]⟩
  | succ n ih =>
    rcases allocLoop_cases h with ⟨hle,rfl,rfl,-⟩ | ⟨-,h0,-⟩ |
      ⟨f,fs,ph1,d1,done,hlt,hl,h1,⟨rfl,h⟩ | ⟨-,h0,-⟩⟩
    · exact ⟨fun _ _ => rfl,fun v _ => by rw [if_neg (by omega)]⟩
    · exact absurd h0 hr
    · have hk : a < KERNBASE := by omega
      obtain ⟨hfree,hrange⟩ := free_fresh hb hl
      have hb2 := mapNew_books ha hk userPerm_low ((hb.kalloc hl).fill (f := f) (fun _ => 0)) h1
      obtain ⟨hm,hlk⟩ := ih (by unfold PGSIZE at *; omega) (by unfold PGSIZE at *; omega) hb2 h
      rcases mappages_page_cases ha hk h1 with ⟨h0,-⟩ | ⟨-,e,q,hg,hw,-,-,rfl⟩
      · cases h0
      have hmem1 : ∀ x, x ≠ f → (ph1.incRef f).mem x = ph.mem x := by
        intro x hx
        rw [incRef_mem, hg.mem]
        exact Function.update_of_ne hx _ _
      have hmemf : (ph1.incRef f).mem f = fun _ => 0 := by
        rw [incRef_mem, hg.mem]
        exact Function.update_self ..
      rw [maps_cons] at hfree
      refine ⟨fun x hx => ?_,fun v hv => ?_⟩
      · rw [hm x hx, hmem1 x (by rintro rfl; omega)]
      · rw [hlk v hv, look, setPte_leaf_page e a v q _ hk hv hw]
        by_cases hva : v = a/PGSIZE
        · rw [if_pos hva, if_neg (by unfold PGSIZE at *; omega),
            if_pos (by unfold PGSIZE at *; omega), seen, entry_P,
            pteFrame_entry f (inRange_lt hrange) _ userPerm_low, hmemf, entry_U]
          rfl
        · have hsame : seen (ph1.incRef f) (e.leaf (v*PGSIZE)) = look ph d v := by
            rw [look, hg.leaf _ (page_addr hv)]
            refine seen_congr rfl rfl (fun hP => hmem1 _ ?_)
            rintro rfl
            have := mapCnt_pos hv (show MapsTo d v _ from ⟨hP,rfl⟩)
            omega
          rw [if_neg hva, hsame]
          have hsplit : (a+PGSIZE ≤ v*PGSIZE ∧ v*PGSIZE < newsz) ↔
              (a ≤ v*PGSIZE ∧ v*PGSIZE < newsz) := by
            unfold PGSIZE at *
            omega
          simp only [hsplit]
    · exact absurd h0 hr

theorem allocuvm_look {oldsz newsz r : ℕ} {ph ph' : Phys} {d d' : PageDir}
    (hb : Books g ph (d::rest) own) (hr : r ≠ 0)
    (h : allocuvm ph d oldsz newsz = .ok (ph', d', r)) :
    (∀ x, 0 < maps rest x → ph'.mem x = ph.mem x) ∧
      ∀ v < UPAGES, look ph' d' v = if oldsz ≤ v*PGSIZE ∧ v*PGSIZE < newsz then
        some (true, fun _ => 0) else look ph d v := by
  rcases allocuvm_cases h with ⟨rfl,rfl,⟨h0,-⟩ | ⟨-,-,hlt⟩⟩ | ⟨hk,-,h⟩
  · exact absurd h0 hr
  · exact ⟨fun _ _ => rfl,fun v _ => by rw [if_neg (by omega)]⟩
  · obtain ⟨h1,h2⟩ := allocLoop_look hk.le (by unfold PGROUNDUP PGSIZE; omega)
      (by unfold PGROUNDUP PGSIZE; omega) hb hr h
    refine ⟨h1,fun v hv => ?_⟩
    have hround : PGROUNDUP oldsz ≤ v*PGSIZE ↔ oldsz ≤ v*PGSIZE := by
      unfold PGROUNDUP PGSIZE
      omega
    rw [h2 v hv]
    simp only [hround]

theorem pagefault_look {va : ℕ} {ph ph' : Phys} {d d' : PageDir} {kill : Bool}
    (hb : Books g ph (d::rest) own) (h : pagefault ph d va = .ok (ph', d', kill)) :
    (∀ x, 0 < maps (d::rest) x → ph'.mem x = ph.mem x) ∧
      ∀ v < UPAGES, look ph' d' v = look ph d v := by
  rcases pagefault_cases h with ⟨-,rfl,rfl⟩ | ⟨p,-,hk,hw,hP,hU,-,hc⟩
  · exact ⟨fun _ _ => rfl,fun _ _ => rfl⟩
  · have hold : d.leaf (va/PGSIZE*PGSIZE) = p := by rw [leaf_page, leaf_of_walk hw]
    rcases hc with ⟨-,rfl,rfl⟩ | ⟨f,fs,-,hl,rfl,rfl⟩
    · refine ⟨fun _ _ => rfl,fun v hv => ?_⟩
      rw [look, setPte_leaf_page d va v p _ hk hv hw]
      split
      · next he =>
        rw [look, he, hold]
        exact seen_congr (reclaim_P p) (reclaim_U p) (fun _ => by rw [reclaim_frame])
      · rfl
    · obtain ⟨hfree,hrange⟩ := free_fresh hb hl
      have hmem : ∀ x, x ≠ f → Function.update ph.mem f (ph.mem (pteFrame p)) x = ph.mem x :=
        fun x hx => Function.update_of_ne hx _ _
      refine ⟨fun x hx => hmem x (by rintro rfl; omega),fun v hv => ?_⟩
      rw [look, setPte_leaf_page d va v p _ hk hv hw]
      split
      · next he =>
        rw [look, he, hold]
        refine seen_congr (by rw [entry_P, hP]) (by rw [entry_U, hU]; rfl) (fun _ => ?_)
        rw [pteFrame_entry f (inRange_lt hrange) _ userPerm_low]
        exact Function.update_self ..
      · refine seen_congr rfl rfl (fun hP' => hmem _ ?_)
        rintro rfl
        have := mapCnt_pos hv (show MapsTo d v _ from ⟨hP',rfl⟩)
        rw [maps_cons] at hfree
        omega

end

theorem cowLoop_look {n i : ℕ} {ph ph' : Phys} {d c pgdir pgdir' : PageDir}
    (ha : i%PGSIZE = 0) (hn : i+n*PGSIZE ≤ KERNBASE)
    (h : cowLoop n i ph pgdir d = .ok (ph', pgdir', some c)) :
    ph'.mem = ph.mem ∧ ∀ v < UPAGES, look ph' pgdir' v = look ph pgdir v ∧
      look ph' c v = if i ≤ v*PGSIZE ∧ v*PGSIZE < i+n*PGSIZE then look ph pgdir v
        else look ph d v := by
  induction n generalizing i ph d pgdir with
  | zero =>
    cases h
    exact ⟨rfl,fun v _ => ⟨rfl,by rw [if_neg (by omega)]⟩⟩
  | succ n ih =>
    have hi : i < KERNBASE := by unfold PGSIZE at hn; omega
    obtain ⟨p,ph1,d1,done,hw,hP,h1,⟨rfl,h⟩ | ⟨-,-,h⟩⟩ := cowLoop_cases h
    · rcases mappages_page_cases ha hi h1 with ⟨h0,-⟩ | ⟨-,e,q,hg,hc,-,-,rfl⟩
      · cases h0
      rw [addr_flags_entry (protect p) (by rw [protect_P, hP])] at h
      obtain ⟨hm,hlk⟩ := ih (by unfold PGSIZE at *; omega) (by unfold PGSIZE at *; omega) h
      have hmem : (ph1.incRef (pteFrame p)).mem = ph.mem := hg.mem
      have hold : pgdir.leaf (i/PGSIZE*PGSIZE) = p := by rw [leaf_page, leaf_of_walk hw]
      have hpar : ∀ v < UPAGES, look (ph1.incRef (pteFrame p))
          (pgdir.setPte i (markCow (protect p))) v = look ph pgdir v := by
        intro v hv
        rw [look, setPte_leaf_page pgdir i v p _ hi hv hw]
        split
        · next he =>
          rw [look, he, hold]
          exact seen_congr (by rw [markCow_P, protect_P]) (by rw [markCow_U, protect_U])
            (fun _ => by rw [markCow_frame, protect_frame, hmem])
        · exact seen_congr rfl rfl (fun _ => by rw [hmem])
      refine ⟨hm.trans hmem,fun v hv => ⟨(hlk v hv).1.trans (hpar v hv),?_⟩⟩
      rw [(hlk v hv).2, hpar v hv]
      by_cases he : v = i/PGSIZE
      · rw [if_neg (by unfold PGSIZE at *; omega), if_pos (by unfold PGSIZE at *; omega), look,
          setPte_leaf_page e i v q _ hi hv hc, if_pos he, look, he, hold]
        exact seen_congr (protect_P p) (protect_U p) (fun _ => by rw [protect_frame, hmem])
      · have hsplit : (i+PGSIZE ≤ v*PGSIZE ∧ v*PGSIZE < i+PGSIZE+n*PGSIZE) ↔
            (i ≤ v*PGSIZE ∧ v*PGSIZE < i+(n+1)*PGSIZE) := by
          unfold PGSIZE at *
          omega
        have hsame : look (ph1.incRef (pteFrame p)) (e.setPte i (protect p)) v = look ph d v := by
          rw [look, setPte_leaf_page e i v q _ hi hv hc, if_neg he, hg.leaf _ (page_addr hv)]
          exact seen_congr rfl rfl (fun _ => by rw [hmem])
        rw [hsame]
        simp only [hsplit]
    · cases (abandon_cases h).1

/-- A child made by `copyuvmcow` sees its parent's pages below `sz`, the parent
sees what it saw, and no page has changed. -/
theorem copyuvmcow_look {sz : ℕ} {ph ph' : Phys} {pgdir pgdir' c : PageDir} (hsz : sz ≤ KERNBASE)
    (h : copyuvmcow ph pgdir sz = .ok (ph', pgdir', some c)) :
    ph'.mem = ph.mem ∧ ∀ v < UPAGES, look ph' pgdir' v = look ph pgdir v ∧
      look ph' c v = if v*PGSIZE < sz then look ph pgdir v else none := by
  rw [copyuvmcow, bind_ok] at h
  obtain ⟨⟨ph1,o⟩,h1,h⟩ := h
  cases o with
  | none => cases h
  | some d =>
    have hf := setupkvm_some h1
    obtain ⟨hm,hlk⟩ := cowLoop_look rfl (pageCount_le hsz) h
    have hsame : ∀ v, look ph1 pgdir v = look ph pgdir v :=
      fun v => seen_congr rfl rfl (fun _ => by rw [hf.mem])
    refine ⟨hm.trans hf.mem,fun v hv => ⟨(hlk v hv).1.trans (hsame v),?_⟩⟩
    have hpages : (0 ≤ v*PGSIZE ∧ v*PGSIZE < 0+pageCount sz*PGSIZE) ↔ v*PGSIZE < sz := by
      unfold pageCount PGSIZE
      omega
    rw [(hlk v hv).2, hsame]
    simp only [hpages]
    split
    · rfl
    · rw [look, hf.leaf _ (page_addr hv)]
      rfl

end Xv6.View
