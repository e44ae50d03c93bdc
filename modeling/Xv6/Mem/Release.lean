import Xv6.Mem.Dealloc
import Xv6.Mem.KernelMap

/-!
# What a directory takes and what `freevm` gives back

Mapping takes frames off the front of the free list and makes page tables of them, so a
new directory consists of the frames that left the list. `freevm` counts every user page
down, frees those whose count comes to zero and then the page tables and the directory. When
`setupkvm` runs out of pages, this is a complete undo.
-/

set_option autoImplicit false

namespace Xv6.Release
open Xv6.Mmu Xv6.Kalloc Xv6.Paging Xv6.Ledger Xv6.Uvm Xv6.Halting Xv6.MapSpec Xv6.GrowSpec
open Xv6.Supply Xv6.Dealloc Xv6.View Xv6.Tally

/-- The frames that left the free list are new page tables of the directory. -/
structure Eats (ph : Phys) (d : PageDir) (ph' : Phys) (d' : PageDir) : Prop where
  frames : ∃ fs, ph.freelist = fs++ph'.freelist ∧ d'.frames.Perm (fs++d.frames)
  tables : ∀ i, (d.pde i).isSome → (d'.pde i).isSome

section
variable {ph ph' ph'' : Phys} {d d' d'' : PageDir}

theorem Eats.refl (ph : Phys) (d : PageDir) : Eats ph d ph d :=
  ⟨⟨[],rfl,List.Perm.refl _⟩,fun _ h => h⟩

theorem Eats.trans (h : Eats ph d ph' d') (h' : Eats ph' d' ph'' d'') : Eats ph d ph'' d'' := by
  obtain ⟨fs,hl,hp⟩ := h.frames
  obtain ⟨gs,hl',hp'⟩ := h'.frames
  refine ⟨⟨fs++gs,?_,?_⟩,fun i hi => h'.tables i (h.tables i hi)⟩
  · rw [hl, hl', List.append_assoc]
  · refine (hp'.trans (hp.append_left gs)).trans ?_
    rw [← List.append_assoc]
    exact List.perm_append_comm.append_right d.frames

theorem Eats.setPte (h : Eats ph d ph' d') (va : ℕ) (p : Pte) : Eats ph d ph' (d'.setPte va p) := by
  obtain ⟨fs,hl,hp⟩ := h.frames
  refine ⟨⟨fs,hl,by rw [setPte_frames]; exact hp⟩,fun i hi => ?_⟩
  have := h.tables i hi
  dsimp only [PageDir.setPte]
  split
  · rwa [Option.isSome_map]
  · exact this

theorem walkpgdir_eats {va : ℕ} {r : Option Pte} (h : walkpgdir ph d va true = (ph', d', r)) :
    Eats ph d ph' d' ∧ ph'.pgRefcount = ph.pgRefcount := by
  rcases walkpgdir_cases ph d va with ⟨p,-,he⟩ | ⟨-,-,he⟩ | ⟨f,fs,hw,hl,he⟩ <;> rw [he] at h <;>
    cases h
  · exact ⟨Eats.refl _ _,rfl⟩
  · exact ⟨Eats.refl _ _,rfl⟩
  · refine ⟨⟨⟨[f],hl,addTable_frames d va f hw⟩,fun i hi => ?_⟩,rfl⟩
    by_cases hv : i = PDX va
    · simp [PageDir.addTable, hv]
    · simpa [PageDir.addTable, Function.update_of_ne hv] using hi

theorem mapLoop_eats {n a : ℕ} {pa perm : Pte} {r : Bool}
    (h : mapLoop n ph d a pa perm = .ok (ph', d', r)) :
    Eats ph d ph' d' ∧ ph'.pgRefcount = ph.pgRefcount := by
  induction n generalizing ph d a pa with
  | zero =>
    cases h
    exact ⟨Eats.refl _ _,rfl⟩
  | succ n ih =>
    rcases mapLoop_ok h with ⟨-,hw⟩ | ⟨ph1,d1,p,hw,-,h⟩
    · exact walkpgdir_eats hw
    · obtain ⟨he,hr⟩ := walkpgdir_eats hw
      obtain ⟨he',hr'⟩ := ih h
      exact ⟨(he.setPte _ _).trans he',hr'.trans hr⟩

theorem kmapLoop_eats {ks : List Kmap} (h : kmapLoop ks ph d = .ok (ph', some d')) :
    Eats ph d ph' d' ∧ ph'.pgRefcount = ph.pgRefcount := by
  apply kmapLoop_keeps (P := fun ph1 d1 => Eats ph d ph1 d1 ∧ ph1.pgRefcount = ph.pgRefcount) _
    ⟨Eats.refl _ _,rfl⟩ h
  rintro k - ph1 ph2 d1 d2 h1 ⟨he,hr⟩
  obtain ⟨he',hr'⟩ := mapLoop_eats h1
  exact ⟨he.trans he',hr'.trans hr⟩

theorem setupkvm_frames (h : setupkvm ph = .ok (ph', some d)) :
    (∃ fs, ph.freelist = fs++ph'.freelist ∧ d.frames.Perm fs) ∧
      ph'.pgRefcount = ph.pgRefcount := by
  rcases setupkvm_cases h with ⟨-,-,h0⟩ | ⟨f,fs,hl,h⟩
  · cases h0
  · obtain ⟨he,hr⟩ := kmapLoop_eats h
    obtain ⟨gs,hg,hp⟩ := he.frames
    have hnew : (⟨f, fun _ => none⟩ : PageDir).frames = [f] := by
      simp [PageDir.frames]
    rw [hnew] at hp
    refine ⟨⟨f::gs,?_,hp.trans List.perm_append_comm⟩,hr⟩
    rw [hl, show fs = gs++ph'.freelist from hg, List.cons_append]

theorem kfreeAll_list (ph : Phys) {l : List ℕ} (h : ∀ f ∈ l, InRange f) :
    ∃ ph', l.foldlM kfree ph = .ok ph' ∧ ph'.freelist = l.reverse++ph.freelist ∧
      ph'.pgRefcount = ph.pgRefcount ∧ ∀ f, f ∉ l → ph'.mem f = ph.mem f := by
  induction l generalizing ph with
  | nil => exact ⟨ph,rfl,rfl,rfl,fun _ _ => rfl⟩
  | cons f l ih =>
    have hf : kfree ph f = .ok { ph.fill f (fun _ => 1) with freelist := f::ph.freelist } := by
      rw [kfree, if_pos (h f List.mem_cons_self)]
    obtain ⟨ph',h1,h2,h3,h4⟩ := ih { ph.fill f (fun _ => 1) with freelist := f::ph.freelist }
      fun x hx => h x (List.mem_cons_of_mem f hx)
    refine ⟨ph',?_,?_,h3,fun x hx => ?_⟩
    · rw [List.foldlM_cons, hf]
      exact h1
    · rw [h2, List.reverse_cons, List.append_assoc]
      rfl
    · rw [List.mem_cons, not_or] at hx
      rw [h4 x hx.2]
      exact Function.update_of_ne hx.1 ..

theorem freeTables (ph : Phys) (hf : ∀ f ∈ d.frames, InRange f) :
    ∃ ph' l, (do
        let ph ← ((List.range NPDENTRIES).filterMap
          (fun i => (d.pde i).map PageTable.frame)).foldlM kfree ph
        kfree ph d.frame) = .ok ph' ∧
      ph'.freelist = l++ph.freelist ∧ l.Perm d.frames ∧ ph'.pgRefcount = ph.pgRefcount ∧
      ∀ f, f ∉ d.frames → ph'.mem f = ph.mem f := by
  have hperm : ((List.range NPDENTRIES).filterMap
      (fun i => (d.pde i).map PageTable.frame)++[d.frame]).Perm d.frames :=
    List.perm_append_singleton _ _
  obtain ⟨ph',hrun,hl,hr,hm⟩ := kfreeAll_list ph fun f hm => hf f (hperm.mem_iff.mp hm)
  refine ⟨ph',_,?_,hl,(List.reverse_perm _).trans hperm,hr,fun f hn => hm f ?_⟩
  · rw [List.foldlM_append] at hrun
    obtain ⟨ph1,h1,h2⟩ := bind_ok.mp hrun
    rw [List.foldlM_cons] at h2
    obtain ⟨ph2,h2,h3⟩ := bind_ok.mp h2
    cases h3
    rw [h1, ok_bind, h2]
  · rwa [hperm.mem_iff]

/-- The frames of the present user pages, in the order of the addresses. -/
def userFrames (d : PageDir) : List ℕ := mappedFrames d (pagesOf KERNBASE 0)

theorem mem_userFrames {f : ℕ} (h : f ∈ userFrames d) : ∃ v < UPAGES, MapsTo d v f := by
  obtain ⟨v,hv,he⟩ := List.mem_filterMap.mp h
  split at he
  · next hP => exact ⟨v,pagesOf_lt (le_refl _) hv,hP,Option.some.inj he⟩
  · cases he

/-- What `freevm` does: it returns, counts every user page down and frees those whose count
comes to zero, the page tables and the directory. -/
theorem freevm_drops (ph : Phys) (hd : Managed d) (hf : ∀ f ∈ d.frames, InRange f) :
    ∃ ph', freevm ph d = .ok ph' ∧
      ph'.freelist.Perm (d.frames++(released ph.pgRefcount (userFrames d)++ph.freelist)) ∧
      (∀ f, ph'.pgRefcount f = countDown ((userFrames d).count f) (ph.pgRefcount f)) ∧
      ∀ f, f ∉ d.frames → f ∉ released ph.pgRefcount (userFrames d) → ph'.mem f = ph.mem f := by
  obtain ⟨ph1,d1,h1,hdrop⟩ := deallocuvm_drops ph d KERNBASE 0 (by decide) (le_refl _)
    fun v hv => hd v (pagesOf_lt (le_refl _) hv)
  obtain ⟨ph2,l,h2,hl,hperm,hr,hm⟩ := freeTables (d := d1) ph1 (by rw [hdrop.frames]; exact hf)
  rw [hdrop.frames] at hperm hm
  refine ⟨ph2,?_,?_,fun f => ?_,fun f h3 h4 => ?_⟩
  · rw [freevm, h1, ok_bind]
    exact h2
  · rw [hl, hdrop.free]
    exact hperm.append ((List.reverse_perm _).append_right _)
  · rw [hr, hdrop.count]
    rfl
  · rw [hm f h3, hdrop.mem f h4]

/-- Every frame is free again that was, and nothing else has changed. -/
structure GivenBack (ph ph' : Phys) : Prop where
  free : ph'.freelist.Perm ph.freelist
  count : ph'.pgRefcount = ph.pgRefcount
  mem : ∀ f, f ∉ ph.freelist → ph'.mem f = ph.mem f

theorem GivenBack.refl (ph : Phys) : GivenBack ph ph := ⟨List.Perm.refl _,rfl,fun _ _ => rfl⟩

end

end Xv6.Release
