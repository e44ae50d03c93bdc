import Xv6.Proc.Descriptors

/-!
# Frames between the free list and the pipes

A frame is free or in use as a pipe, never both, and the calls on files move frames from
one side to the other: `pipe` takes one off the free list, the close of the last end puts
it back. Within one such call the two sides together stay the same frames. The calls that
change memory leave the pipes alone. Every call is one of these parts, after which the
process may exit.
-/

set_option autoImplicit false

namespace Xv6.OpenFiles
open Xv6.Mmu Xv6.Kalloc Xv6.Paging Xv6.Table Xv6.Files Xv6.Ledger Xv6.Halting
open Xv6.MapSpec Xv6.Kern Kernel

/-- A file is an end of the pipe in frame `p`. -/
def InUse (t : Ftable) (p : ℕ) : Prop := ∃ f, (t.file f).type = .pipe ∧ (t.file f).pipe = p

instance (t : Ftable) (p : ℕ) : Decidable (InUse t p) := inferInstanceAs (Decidable (∃ _, _))

theorem pipes_mem {t : Ftable} {P : List ℕ} (h : Pipes t P) (p : ℕ) : p ∈ P ↔ InUse t p := by
  constructor
  · intro hm
    obtain ⟨w,hw⟩ := h.used p hm
    obtain ⟨f,hf,hfp,-⟩ := h.backed p hm w hw
    exact ⟨f,hf,hfp⟩
  · rintro ⟨f,hf,rfl⟩
    exact (h.ends f hf).1

/-- The frames that are free or in use as pipes are those of `W`. -/
def Pool (W : List ℕ) (ph : Phys) (t : Ftable) : Prop := ∃ P, Pipes t P ∧ (ph.freelist++P).Perm W

/-- Frames only go back to the free list. -/
def Gives (ph : Phys) (t : Ftable) (ph' : Phys) (t' : Ftable) : Prop :=
  ∀ W : List ℕ, W.Nodup → Pool W ph t → Pool W ph' t' ∧ ∀ p, InUse t' p → InUse t p

section
variable {W : List ℕ} {ph ph' ph'' : Phys} {t t' t'' : Ftable} {o o' : Ofile} {f : Fin NFILE}
  {fd : Fin NOFILE}

theorem Pool.count (h : Pool W ph t) (hn : W.Nodup) (p : ℕ) :
    ph.freelist.count p+(if InUse t p then 1 else 0) = W.count p := by
  obtain ⟨P,hp,hperm⟩ := h
  have hP : P.Nodup := (hperm.nodup_iff.mpr hn).of_append_right
  rw [← hperm.count_eq p, List.count_append]
  by_cases hm : p ∈ P
  · rw [if_pos ((pipes_mem hp p).mp hm), List.count_eq_one_of_mem hP hm]
  · rw [if_neg (fun hu => hm ((pipes_mem hp p).mpr hu)), List.count_eq_zero.mpr hm]

theorem Gives.refl (ph : Phys) (t : Ftable) : Gives ph t ph t := fun _ _ h => ⟨h,fun _ hu => hu⟩

theorem Gives.trans (h : Gives ph t ph' t') (h' : Gives ph' t' ph'' t'') : Gives ph t ph'' t'' := by
  intro W hn hW
  obtain ⟨h1,hu1⟩ := h W hn hW
  obtain ⟨h2,hu2⟩ := h' W hn h1
  exact ⟨h2,fun p hp => hu1 p (hu2 p hp)⟩

theorem fileclose_gives (h : fileclose ph t f = .ok (ph', t')) : Gives ph t ph' t' := by
  rintro W hn ⟨P,hp,hperm⟩
  have hP : P.Nodup := (hperm.nodup_iff.mpr hn).of_append_right
  rcases fileclose_pipes hp hP h with ⟨rfl,hp'⟩ | ⟨p,Q,hPQ,hfree,hp'⟩
  · exact ⟨⟨P,hp',hperm⟩,fun p hu => (pipes_mem hp p).mp ((pipes_mem hp' p).mpr hu)⟩
  · have hback : ph'.freelist = p::ph.freelist := by
      rw [kfree] at hfree
      split at hfree
      · cases hfree
        rfl
      · cases hfree
    refine ⟨⟨Q,hp',?_⟩,fun q hu => ?_⟩
    · rw [hback]
      exact (List.perm_middle.symm.trans (hPQ.symm.append_left _)).trans hperm
    · have hq := List.mem_cons_of_mem p ((pipes_mem hp' q).mpr hu)
      exact (pipes_mem hp q).mp (hPQ.mem_iff.mpr hq)

theorem sysclose_gives {r : ℤ} (h : sysclose ph t o fd = .ok (ph', t', o', r)) :
    Gives ph t ph' t' := by
  rw [Files.sysclose] at h
  split at h
  · cases h
    exact Gives.refl _ _
  · rw [bind_ok] at h
    obtain ⟨⟨ph1,t1⟩,h1,h2⟩ := h
    cases h2
    exact fileclose_gives h1

theorem closeAll_gives {l : List (Fin NOFILE)} (h : closeAll l ph t o = .ok (ph', t', o')) :
    Gives ph t ph' t' := by
  induction l generalizing ph t o with
  | nil =>
    cases h
    exact Gives.refl _ _
  | cons fd l ih =>
    rw [closeAll, bind_ok] at h
    obtain ⟨⟨ph1,t1,o1,r⟩,h1,h⟩ := h
    exact (sysclose_gives h1).trans (ih h)

end

/-! ## The calls -/

section
variable {g : Ghost} {k k' k1 : Kernel} {i : Fin NPROC}

theorem exit_gives (h : k.exit i = .ok k') : Gives k.phys k.files k'.phys k'.files := by
  obtain ⟨-,ph,t,o,h1,rfl⟩ := exit_cases h
  exact closeAll_gives h1

/-- What a call does before the process returns or exits: it moves frames between the free
list and the pipes, only gives them back, or leaves the pipes alone. -/
inductive Part (k : Kernel) : Call → Kernel → Prop where
  | pipe {k1 : Kernel} (h : ∀ W : List ℕ, W.Nodup → Pool W k.phys k.files →
      Pool W k1.phys k1.files) : Part k (.op .pipe) k1
  | gives {c : Call} {k1 : Kernel} (h : Gives k.phys k.files k1.phys k1.files) : Part k c k1
  | memory {c : Call} {k1 : Kernel} (hc : c.isPipe = false)
      (h : ∀ p, InUse k1.files p ↔ InUse k.files p) : Part k c k1

theorem Part.same {c : Call} (hc : c.isPipe = false) (h : k1.files = k.files) : Part k c k1 :=
  .memory hc fun p => by rw [h]

theorem Part.none (k : Kernel) (c : Call) : Part k c k := .gives (Gives.refl _ _)

/-- A ledger that watches no entry. -/
def Ledgered (k : Kernel) : Prop := ∃ g, g.watch = (fun _ => False) ∧ KInv g k

theorem Ledgered.exit (h : Ledgered k) (hi : (k.table.slot i).state.hasSpace = true)
    (he : k.exit i = .ok k') : Ledgered k' := by
  obtain ⟨g,hg,hk⟩ := h
  exact ⟨g,hg,exit_inv hk hi he⟩

theorem Ledgered.ends (h : Ledgered k1) (hend : Ends k1 k' i) :
    Ledgered k' ∧ Gives k1.phys k1.files k'.phys k'.files := by
  rcases hend with rfl | ⟨hi,hx⟩
  · exact ⟨h,Gives.refl _ _⟩
  · exact ⟨h.exit hi hx,exit_gives hx⟩

end

end Xv6.OpenFiles
