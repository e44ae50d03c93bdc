import Xv6.Proc.Counts
import Xv6.Proc.Frames
import Xv6.Proc.PipePages

/-!
# A pipe page that is freed in use

Plain `fork` leaves the child's page uncounted. When the child then calls `forkcow`, the
page has two owners and count one, so the `exec` of the second puts it on the free list
although the first still maps it. A pipe is made of the page, and the next `forkcow` and
`exec` free it again while the descriptors refer to it.
-/

set_option autoImplicit false

namespace Xv6.OpenFiles
open Xv6.Mmu Xv6.Kalloc Xv6.Paging Xv6.Uvm Xv6.Table Xv6.Files Xv6.Halting Xv6.MapSpec
open Xv6.Supply Xv6.GrowSpec Xv6.Frames Xv6.Refs Xv6.Kern

/-- The process runs and nobody has killed it. -/
structure Calm (k : Kernel) (i : Fin NPROC) : Prop where
  state : (k.table.slot i).state = .runnable
  awake : (k.table.slot i).chan = none
  unkilled : (k.table.slot i).killed = false

def HasPage (k : Kernel) (i : Fin NPROC) (y : ℕ) : Prop :=
  (k.table.slot i).sz = PGSIZE ∧ ∃ d, k.pgdir i = some d ∧ OnePage d y

/-- The first `n` slots are in use; the first process has the page `f` and its child `x`. -/
structure Stage (k : Kernel) (n f x : ℕ) : Prop where
  two : 2 ≤ n
  calm : ∀ j : Fin NPROC, j.val < n → Calm k j
  fresh : ∀ j : Fin NPROC, n ≤ j.val → Virgin k j
  chars : ∀ y, toChar (k.phys.pgRefcount y) = k.phys.pgRefcount y
  range : ∀ y ∈ k.phys.freelist, InRange y
  parent : HasPage k slot0 f
  child : HasPage k slot1 x

section
variable {k : Kernel} {n f x y : ℕ} {i : Fin NPROC}

theorem HasPage.small (h : HasPage k i y) (hc : Calm k i) (ho : ∀ fd, k.ofile i fd = none) :
    ∃ d, Small k i d ∧ OnePage d y := by
  obtain ⟨hsz,d,hd,hp⟩ := h
  refine ⟨d,⟨hc.state,hc.awake,hc.unkilled,hd,by rw [hsz]; decide,fun v hv => ?_,ho⟩,hp⟩
  rw [hsz] at hv
  rw [one_page hv, Nat.zero_mul]
  exact hp.present

theorem HasPage.unique {z : ℕ} {d : PageDir} (h : HasPage k i y) (hd : k.pgdir i = some d)
    (hp : OnePage d z) : y = z := by
  obtain ⟨-,d',hd',hp'⟩ := h
  rw [hd] at hd'
  cases hd'
  rw [← hp.frame, hp'.frame]

theorem Stage.exec {e : PageDir} (h : Stage k n f x) (hi : i.val < n) (h0 : i ≠ slot0)
    (h1 : i ≠ slot1) (hdir : k.pgdir i = some e) (he : OnePage e x)
    (hfr : ∀ g ∈ e.frames, InRange g) (hx : InRange x) (hxf : x ∉ k.phys.freelist)
    (hr : k.phys.pgRefcount x = 1) (hf : 134 ≤ k.phys.freelist.length) :
    ∃ k' l r, act k i (.op (.exec (some emptyElf) [])) = .ok (k', .val 0) ∧ Stage k' n f x ∧
      k'.phys.freelist = l++x::r ∧ l.Perm e.frames ∧ r <:+ k.phys.freelist ∧
      k.phys.freelist.length ≤ r.length+134 ∧ k'.phys.pgRefcount x = 0 ∧
      k'.files = k.files ∧ k'.ofile = k.ofile := by
  have hcalm := h.calm i hi
  obtain ⟨ph1,d1,himg,hlen,-⟩ := image_empty k.phys hf
  have ht := image_takes himg
  obtain ⟨ph2,l,hfv,hl,hperm,href⟩ := freevm_onePage ph1 he hx ((ht.ref x hxf).trans hr) hfr
  have hslot : ∀ j, (k.table.setSz i (2*PGSIZE)).slot j = if j = i then
      { k.table.slot i with sz := 2*PGSIZE } else k.table.slot j :=
    fun j => Ptable.set_slot _ _ _ _
  have hpage : ∀ j z, j ≠ i → HasPage k j z →
      HasPage { k.setDir i ph2 d1 with table := k.table.setSz i (2*PGSIZE) } j z := by
    intro j z hj hz
    refine ⟨by rw [hslot, if_neg hj]; exact hz.1,?_⟩
    rw [show ({ k.setDir i ph2 d1 with table := k.table.setSz i (2*PGSIZE) } : Kernel).pgdir j =
      k.pgdir j from Function.update_of_ne hj ..]
    exact hz.2
  refine ⟨{ k.setDir i ph2 d1 with table := k.table.setSz i (2*PGSIZE) },l,ph1.freelist,?_,?_,hl,
    hperm,ht.suffix,hlen,?_,rfl,rfl⟩
  · have hexec : k.exec i (some emptyElf) [] =
        .ok ({ k.setDir i ph2 d1 with table := k.table.setSz i (2*PGSIZE) }, 0) := by
      rw [Kernel.exec]
      dsimp only [bind, Except.bind]
      rw [himg]
      dsimp only [bind, Except.bind]
      rw [Kernel.dir, hdir]
      dsimp only
      rw [hfv]
    rw [act, step_syscall (by rw [hcalm.unkilled]; simp), syscall, bind_ok]
    refine ⟨_,hexec,?_⟩
    rw [back]
    dsimp only
    rw [hslot, if_pos rfl]
    dsimp only
    rw [hcalm.unkilled]
    rfl
  · refine ⟨h.two,fun j hj => ?_,fun j hj => ?_,fun v => ?_,fun v hv => ?_,
      hpage slot0 f (Ne.symm h0) h.parent,hpage slot1 x (Ne.symm h1) h.child⟩
    · have hc := h.calm j hj
      by_cases hji : j = i
      · subst hji
        constructor <;> rw [hslot, if_pos rfl]
        · exact hc.state
        · exact hc.awake
        · exact hc.unkilled
      · constructor <;> rw [hslot, if_neg hji]
        · exact hc.state
        · exact hc.awake
        · exact hc.unkilled
    · have hji : j ≠ i := by
        rintro rfl
        omega
      have hv := h.fresh j hj
      refine ⟨?_,?_,?_,hv.closed⟩ <;> rw [hslot, if_neg hji]
      · exact hv.state
      · exact hv.awake
      · exact hv.unkilled
    · change toChar (ph2.pgRefcount v) = ph2.pgRefcount v
      rw [href]
      by_cases hvx : v = x
      · rw [hvx, Function.update_self]
        rfl
      · rw [Function.update_of_ne hvx]
        exact ht.chars h.chars v
    · replace hv : v ∈ ph2.freelist := hv
      rw [hl, List.mem_append, List.mem_cons] at hv
      rcases hv with hv | rfl | hv
      · exact hfr v (hperm.mem_iff.mp hv)
      · exact hx
      · exact h.range v (ht.suffix.mem hv)
  · change ph2.pgRefcount x = 0
    rw [href, Function.update_self]

theorem Stage.still {k' : Kernel} (h : Stage k n f x) (ht : k'.table = k.table)
    (hd : k'.pgdir = k.pgdir) (hr : k'.phys.pgRefcount = k.phys.pgRefcount)
    (hl : ∀ v ∈ k'.phys.freelist, InRange v)
    (ho : ∀ j : Fin NPROC, n ≤ j.val → k'.ofile j = k.ofile j) : Stage k' n f x := by
  refine ⟨h.two,fun j hj => ?_,fun j hj => ?_,by rw [hr]; exact h.chars,hl,?_,?_⟩
  · have hc := h.calm j hj
    constructor <;> rw [ht]
    · exact hc.state
    · exact hc.awake
    · exact hc.unkilled
  · have hv := h.fresh j hj
    refine ⟨?_,?_,?_,by rw [ho j hj]; exact hv.closed⟩ <;> rw [ht]
    · exact hv.state
    · exact hv.awake
    · exact hv.unkilled
  · rw [HasPage, ht, hd]
    exact h.parent
  · rw [HasPage, ht, hd]
    exact h.child

end

/-! ## Closing a pipe -/

/-- The kernel after process `i` has closed the descriptor `fd` of the pipe end `g`. -/
def closed (k : Kernel) (i : Fin NPROC) (fd : Fin NOFILE) (g : Fin NFILE) (ph : Phys) : Kernel :=
  { k with phys := ph, files := dropEnd k.files g,
           ofile := Function.update k.ofile i (Function.update (k.ofile i) fd none) }

theorem idle {k : Kernel} (h : Slots k) (ho : ∀ i fd, k.ofile i fd = none) (f : Fin NFILE) :
    (k.files.file f).ref = 0 := by
  rw [h.ref]
  refine Finset.sum_eq_zero fun i _ => Nat.eq_zero_of_not_pos fun hpos => ?_
  obtain ⟨fd,hfd⟩ := number_pos.mp hpos
  rw [ho] at hfd
  cases hfd

end Xv6.OpenFiles
