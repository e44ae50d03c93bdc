import Xv6.Mem.Races

/-!
# Whole runs of concurrent page faults

A run starts from a settled state, such as a kernel state with exact books. As long
as every decrement of a page-fault handler finds its page still shared, no page is
lost or freed under a mapping. Nothing in `pagefault` ensures that: two handlers that
test the count of one page before either decrements it lose the page.
-/

set_option autoImplicit false

namespace Xv6.Races
open Xv6.Mmu Xv6.Kalloc Xv6.Paging Xv6.Refs Xv6.Ledger

variable {ι ν : Type} [DecidableEq ι] [DecidableEq ν] [Fintype ι] [Fintype ν]
  {U : Set ℕ} {s s' : Sys ι ν}

/-- No handler is at work, each counter is the number of entries that map its frame,
and a frame is mapped, or once on the free list, or unknown to the allocator. -/
structure Settled (s : Sys ι ν) : Prop where
  quiet : s.Quiet
  counted : ∀ f, s.phys.pgRefcount f = number s.hold f
  small : ∀ f, s.phys.pgRefcount f ≤ 127
  range : ∀ f, f ∈ s.phys.freelist ∨ s.Maps f → InRange f
  nodup : s.phys.freelist.Nodup
  apart : ∀ f ∈ s.phys.freelist, ¬s.Maps f

theorem maps_iff (hq : s.Quiet) (f : ℕ) : s.Maps f ↔ 0 < number s.hold f := by
  rw [number_pos, Prod.exists]
  refine exists_congr (fun i => exists_congr (fun v => ?_))
  rw [hold_at (hq i), Point.held, mapped, Sys.frame]
  split <;> simp_all

theorem carry_quiet (hq : s.Quiet) (f : ℕ) : number s.carry f = 0 := by
  by_contra h
  obtain ⟨i,hi⟩ := number_pos.mp (Nat.pos_of_ne_zero h)
  rw [carry_at (hq i)] at hi
  cases hi

theorem settled_inv (h : Settled s) : Inv { f | f ∈ s.phys.freelist ∨ s.Maps f } s where
  account := by
    refine ⟨h.counted,fun f hf => .inr ((maps_iff h.quiet f).mpr hf),fun f hf h0 => ?_,
      fun f hf => ?_⟩ <;> rw [carry_quiet h.quiet, Nat.add_zero]
    · have hmaps : ¬s.Maps f := by
        rw [maps_iff h.quiet]
        omega
      exact List.count_eq_one_of_mem h.nodup (hf.resolve_right hmaps)
    · rw [← maps_iff h.quiet] at hf
      exact List.count_eq_zero.mpr (fun hm => hf.elim (fun hn => hn (.inl hm)) (h.apart f hm))
  small := h.small
  range := h.range
  present i v hv := by
    rw [h.quiet i] at hv
    cases hv

/-- The user half of the directories of a kernel state. -/
def ofDirs (ph : Phys) (ds : List PageDir) : Sys (Fin ds.length) (Fin UPAGES) where
  phys := ph
  pte i v := (ds.get i).leaf (v*PGSIZE)
  point _ := .idle
  killed _ := false

theorem ofDirs_number (ph : Phys) (ds : List PageDir) (f : ℕ) :
    number (ofDirs ph ds).hold f = maps ds f := by
  have hin : ∀ i : Fin ds.length, (∑ v : Fin UPAGES,
      if (ofDirs ph ds).hold (i,v) = some f then 1 else 0) = mapCnt (ds.get i) f := by
    intro i
    rw [mapCnt, Tally.tally, Finset.card_filter, Finset.sum_range]
    refine Finset.sum_congr rfl (fun v _ => if_congr ?_ rfl rfl)
    change mapped ((ds.get i).leaf (v*PGSIZE)) = some f ↔ _
    rw [mapped, MapsTo]
    split <;> simp_all
  rw [number, Tally.tally, Finset.card_filter, Fintype.sum_prod_type,
    Finset.sum_congr rfl (fun i _ => hin i), maps]
  exact Fin.sum_univ_fun_getElem ds (fun d => mapCnt d f)

theorem books_settled {ph : Phys} {ds : List PageDir} {own : List ℕ}
    (hb : Books Ghost.exact ph ds own) (hlen : ds.length ≤ 127) : Settled (ofDirs ph ds) := by
  have hmaps : ∀ f, (ofDirs ph ds).Maps f ↔ 0 < maps ds f := by
    intro f
    rw [maps_iff (fun _ => rfl), ofDirs_number]
  have hone : ∀ f, ph.freelist.count f+(if 0 < maps ds f then 1 else 0) ≤
      if InRange f then 1 else 0 := by
    intro f
    have := hb.within f
    unfold held kept at this
    omega
  refine ⟨fun _ => rfl,fun f => ?_,fun f => ?_,fun f hf => ?_,?_,fun f hf hm => ?_⟩
  · rw [ofDirs_number]
    exact (hb.counted f).symm ▸ (add_zero _).symm
  · have h1 := hb.counted f
    have h2 := maps_le_length f (fun d hd => hb.inj d hd f)
    change ph.pgRefcount f+((0 : ℕ) : ℤ) = _ at h1
    change ph.pgRefcount f ≤ 127
    omega
  · by_contra hr
    have h1 := hone f
    rw [if_neg hr] at h1
    obtain hf | hf := hf
    · have := List.count_pos_iff.mpr hf
      change 0 < ph.freelist.count f at this
      omega
    · rw [hmaps] at hf
      rw [if_pos hf] at h1
      omega
  · rw [List.nodup_iff_count_le_one]
    intro f
    have h1 := hone f
    change ph.freelist.count f ≤ 1
    split at h1 <;> split at h1 <;> omega
  · have h1 := hone f
    have h2 := List.count_pos_iff.mpr hf
    change 0 < ph.freelist.count f at h2
    rw [hmaps] at hm
    rw [if_pos hm] at h1
    split at h1 <;> omega

theorem reach_inv {s₀ : Sys ι ν} (h₀ : Settled s₀) (h : Reach StillShared s₀ s) :
    Inv { f | f ∈ s₀.phys.freelist ∨ s₀.Maps f } s := by
  induction h with
  | start => exact settled_inv h₀
  | step _ hC hs ih => exact inv_step ih hC hs

/-- Two processes after `forkcow`, with one page in common and two pages free. -/
def twin : Sys (Fin 2) (Fin 1) where
  phys := { freelist := [1025,1026], pgRefcount := fun f => if f = 1024 then 2 else 0,
            mem := fun _ _ => 0 }
  pte _ _ := physAddr 1024 ||| PTE_P ||| PTE_U ||| PTE_COW
  point _ := .idle
  killed _ := false

theorem twin_maps (f : ℕ) : twin.Maps f ↔ f = 1024 := by
  have hP : ∀ i v, has (twin.pte i v) PTE_P = true := by decide
  have hf : ∀ i v, twin.frame i v = 1024 := by decide
  refine ⟨?_,?_⟩
  · rintro ⟨i,v,-,rfl⟩
    exact hf i v
  · rintro rfl
    exact ⟨0,0,hP 0 0,hf 0 0⟩

theorem twin_settled : Settled twin where
  quiet _ := rfl
  counted f := by
    have hh : ∀ x, twin.hold x = some 1024 := by decide
    rw [number, Tally.tally, Finset.filter_congr (q := fun _ => 1024 = f)
      (fun x _ => by rw [hh x, Option.some_inj])]
    by_cases hf : f = 1024
    · subst hf
      rfl
    · simp [twin, hf, Ne.symm hf]
  small f := by
    dsimp only [twin]
    split <;> decide
  range f hf := by
    rw [twin_maps] at hf
    obtain hf | rfl := hf
    · simp only [twin, List.mem_cons, List.not_mem_nil, or_false] at hf
      obtain rfl | rfl := hf <;> decide
    · decide
  nodup := by decide
  apart f hf := by
    rw [twin_maps]
    rintro rfl
    revert hf
    decide

/-- In every run in which each decrement of a page-fault handler finds its page still
shared, once all handlers are done, a frame that was mapped or free at the start is
on the free list exactly once when no entry maps it any more, and not at all when one
does. -/
theorem pages_kept {s₀ : Sys ι ν} (h₀ : Settled s₀) (h : Reach StillShared s₀ s) (hq : s.Quiet)
    (f : ℕ) : (f ∈ s₀.phys.freelist ∨ s₀.Maps f → ¬s.Maps f → s.phys.freelist.count f = 1) ∧
      (s.Maps f → f ∉ s.phys.freelist) := by
  have hinv := reach_inv h₀ h
  have hcarry := carry_quiet hq f
  refine ⟨fun hf hm => ?_,fun hm => ?_⟩
  · rw [maps_iff hq] at hm
    have := hinv.account.spare f hf (by omega)
    omega
  · rw [maps_iff hq] at hm
    have := hinv.account.busy f (.inr hm)
    exact List.count_eq_zero.mp (by omega)

theorem pages_kept_twin : ∃ s : Sys (Fin 2) (Fin 1), Reach StillShared twin s ∧ s.Quiet ∧
    ¬s.Maps 1024 ∧ s.phys.freelist.count 1024 = 1 := by
  -- The first process takes its copy, then the second lets go of the page.
  have h1 := (@Reach.start _ _ _ _ StillShared twin).step (a := .test 0 0) trivial
    (@Step.shared _ _ _ _ _ 0 0 rfl rfl rfl rfl (by decide))
  have h2 := h1.step (a := .copy 0 0) trivial (@Step.copy _ _ _ _ _ 0 0 _ _ rfl rfl)
  have h3 := h2.step (a := .drop 0 0) (by change (1 : ℤ) < _; decide)
    (@Step.drop _ _ _ _ _ 0 0 _ rfl)
  have h4 := h3.step (a := .raise 0 0) trivial (@Step.raise _ _ _ _ _ 0 0 _ rfl)
  have h5 := h4.step (a := .install 0 0) trivial (@Step.install _ _ _ _ _ 0 0 _ rfl)
  have h6 := h5.step (a := .release 1 0) trivial (@Step.release _ _ _ _ _ 1 0 rfl rfl)
  have h7 := h6.step (a := .free 1 0) trivial (@Step.free _ _ _ _ _ 1 0 _ rfl
    (if_pos (by decide)))
  have h8 := h7.step (a := .clear 1 0) trivial (@Step.clear _ _ _ _ _ 1 0 rfl)
  exact ⟨_,h8,by decide,by decide,(pages_kept twin_settled h8 (by decide) 1024).1
    (.inr ((twin_maps 1024).mpr rfl)) (by decide)⟩

/-- Two handlers that both saw the count at two both decrement it; the page is then
counted by nobody and stays off the free list. -/
theorem twin_faults_lose_page : ¬∀ s₀ s : Sys (Fin 2) (Fin 1), Settled s₀ →
    Reach (fun _ _ => True) s₀ s → s.Quiet → ∀ f, (f ∈ s₀.phys.freelist ∨ s₀.Maps f →
      ¬s.Maps f → s.phys.freelist.count f = 1) ∧ (s.Maps f → f ∉ s.phys.freelist) := by
  intro hall
  have h1 := (@Reach.start _ _ _ _ (fun _ _ => True) twin).step trivial
    (@Step.shared _ _ _ _ _ 0 0 rfl rfl rfl rfl (by decide))
  have h2 := h1.step trivial (@Step.shared _ _ _ _ _ 1 0 rfl rfl rfl rfl (by decide))
  have h3 := h2.step trivial (@Step.copy _ _ _ _ _ 0 0 _ _ rfl rfl)
  have h4 := h3.step trivial (@Step.copy _ _ _ _ _ 1 0 _ _ rfl rfl)
  have h5 := h4.step trivial (@Step.drop _ _ _ _ _ 0 0 _ rfl)
  have h6 := h5.step trivial (@Step.drop _ _ _ _ _ 1 0 _ rfl)
  have h7 := h6.step trivial (@Step.raise _ _ _ _ _ 0 0 _ rfl)
  have h8 := h7.step trivial (@Step.raise _ _ _ _ _ 1 0 _ rfl)
  have h9 := h8.step trivial (@Step.install _ _ _ _ _ 0 0 _ rfl)
  have h10 := h9.step trivial (@Step.install _ _ _ _ _ 1 0 _ rfl)
  have hlost := (hall _ _ twin_settled h10 (by decide) 1024).1 (.inr ((twin_maps 1024).mpr rfl)) (by decide)
  exact absurd hlost (by decide)

end Xv6.Races
