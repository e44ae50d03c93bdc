import Xv6.User.UmallocHeap

/-!
# Programs that use the allocator

A run is any sequence of calls of `malloc` and of `free` on blocks in use, with stores of
the program into these blocks in between. Under a `sbrk` that returns fresh memory every
heap of a run is sound and every call returns. The `sbrk` of the kernel is such a one for
arguments that are positive as an `int`; a request near the largest `uint` wraps in the
count of units and gets a block that is too small.
-/

set_option autoImplicit false

namespace Xv6.Umalloc
open Xv6.Cycle Xv6.Tiling

variable {S : Type}

/-- The units for a request, as the formula of `malloc` means them. -/
def unitsFor (nbytes : ℕ) : ℕ := (nbytes+7)/8+1

section
variable (base : ℕ) (sbrk : S → ℕ → Option ℕ × S) (granted : S → List Span) (ok : S → Prop)

/-- The heaps that a program reaches, with the blocks it has in use. -/
inductive Run : Heap S → List Blk → Prop where
  | start {h : Heap S} (hz : h.freep = 0) (hok : ok h.sys) (hg : granted h.sys = []) : Run h []
  | malloc {h h' : Heap S} {live : List Blk} (hrun : Run h live) {nbytes r : ℕ}
      (hsmall : 8*unitsFor nbytes < 2^31) (hret : Returns (fun k => malloc base sbrk k h nbytes) (r,h')) :
      Run h' (if r = 0 then live else ⟨r-8,h'.size (r-8)⟩::live)
  | free {h h' : Heap S} {live : List Blk} (hrun : Run h live) {b : Blk} (hb : b ∈ live)
      (hret : Returns (fun k => free k h (b.addr+8)) h') : Run h' (live.erase b)
  | store {h : Heap S} {live : List Blk} (hrun : Run h live) (hdr : ℕ → Header)
      (hsame : ∀ a, (∀ b ∈ live, ¬ (b.addr < a ∧ a < b.stop)) → hdr a = h.hdr a) :
      Run { h with hdr := hdr } live

end

section
variable {base : ℕ} {sbrk : S → ℕ → Option ℕ × S} {granted : S → List Span} {ok : S → Prop}
  {h h' : Heap S} {fs live : List Blk} {b : Blk} {nbytes : ℕ}

theorem units_small (hsmall : 8*unitsFor nbytes < 2^31) : (nbytes+8-1)%2^32/8+1 = unitsFor nbytes := by
  rw [unitsFor] at hsmall ⊢
  omega

theorem Sound.store (hs : Sound base granted ok h fs live) {hdr : ℕ → Header}
    (hsame : ∀ a, (∀ b ∈ live, ¬ (b.addr < a ∧ a < b.stop)) → hdr a = h.hdr a) :
    Sound base granted ok { h with hdr := hdr } fs live := by
  have hbase : hdr base = h.hdr base := hsame base fun c hc hin => by
    have := hs.blocks.fits (b := c) (List.mem_append_right _ hc)
    omega
  have hheader : ∀ b ∈ fs++live, hdr b.addr = h.hdr b.addr := by
    intro b hb
    refine hsame _ fun c hc hin => ?_
    have hpos := (hs.blocks.fits hb).2.2
    have hne : b.span ≠ c.span := fun he => hin.1.ne' (congrArg Span.lo he)
    have hap : b.span.Apart c.span := hs.blocks.tiles.apart.forall (List.mem_map_of_mem hb)
      (List.mem_map_of_mem (List.mem_append_right _ hc)) hne
    simp only [Blk.span, Span.Apart, Blk.stop] at hap hin
    omega
  have hsize : ∀ a, hdr a = h.hdr a → Heap.size { h with hdr := hdr } a = h.size a :=
    fun a ha => congrArg Header.size ha
  refine ⟨hs.sys,hs.blocks.congr rfl fun b hb => hsize _ (hheader b hb),hs.list.imp_left fun hr => ?_⟩
  refine ⟨hr.ring.move (congrArg Header.ptr hbase) fun a ha => ?_,hr.freep,(hsize _ hbase).trans hr.zero,hr.gaps⟩
  obtain ⟨f,hf,rfl⟩ := List.mem_map.mp ha
  exact congrArg Header.ptr (hheader f (List.mem_append_left _ hf))

theorem Sound.free (hs : Sound base granted ok h fs live) (hb : b ∈ live) :
    ∃ h' fs', Returns (fun k => free k h (b.addr+8)) h' ∧ Sound base granted ok h' fs' (live.erase b) := by
  have hr : Rep base h fs := hs.list.resolve_right fun he => by
    rw [he.2.2] at hb
    cases hb
  have hperm : (fs++live).Perm (b::(fs++live.erase b)) :=
    ((List.perm_cons_erase hb).append_left fs).trans List.perm_middle
  obtain ⟨h',fs',hret,hsys,hf⟩ := free_returns hr (hs.blocks.perm hperm)
  refine ⟨h',fs',hret,?_,hf.blocks,.inl hf.rep⟩
  rw [hsys]
  exact hs.sys

theorem Ended.sound {r : ℕ} {s : S} {n : ℕ} (he : Ended base sbrk granted ok s n fs live (r,h')) :
    ∃ fs', Sound base granted ok h' fs' (if r = 0 then live else ⟨r-8,h'.size (r-8)⟩::live) := by
  rcases he with ⟨hz,hs,-⟩ | ⟨b,fs',hr,-,hs⟩
  · rw [if_pos hz]
    exact ⟨fs,hs⟩
  · change r = b.addr+8 at hr
    have hsize : h'.size (r-8) = b.size := by
      rw [hr, Nat.add_sub_cancel]
      exact hs.blocks.sizes b (by simp)
    rw [if_neg (by omega), hsize, hr, Nat.add_sub_cancel]
    exact ⟨fs',hs⟩

theorem Run.sound (hfresh : Fresh base sbrk granted ok) (h0 : 0 < base)
    (hrun : Run base sbrk granted ok h live) : ∃ fs, Sound base granted ok h fs live := by
  induction hrun with
  | @start h hz hok hg =>
    refine ⟨[],hok,⟨?_,fun b hb => (by cases hb),?_⟩,.inr ⟨hz,rfl,rfl⟩⟩
    · rw [hg]
      exact Tiles.none
    · rw [hg]
      exact fun g hgm => (by cases hgm)
  | malloc _ hsmall hret ih =>
    obtain ⟨fs,hs⟩ := ih
    obtain ⟨x,hx,he⟩ := malloc_ended hfresh h0 hs (units_small hsmall) hsmall
    rw [← hret.unique hx] at he
    exact he.sound
  | free _ hb hret ih =>
    obtain ⟨fs,hs⟩ := ih
    obtain ⟨h',fs',hx,hs'⟩ := hs.free hb
    rw [hret.unique hx]
    exact ⟨fs',hs'⟩
  | store _ hdr hsame ih =>
    obtain ⟨fs,hs⟩ := ih
    exact ⟨fs,hs.store hsame⟩

/-- Every heap of a run is sound: the free list is circular from `base` upward with a gap
behind each block, and its blocks with those in use tile the memory granted. The calls of
`malloc` and `free` return, and a block from `malloc` has room for what was asked. -/
theorem heap_stays_sound (hbase : 0 < base) (hfresh : Fresh base sbrk granted ok)
    (hrun : Run base sbrk granted ok h live) :
    ∃ fs, Sound base granted ok h fs live ∧
      (∀ nbytes, 8*unitsFor nbytes < 2^31 →
        ∃ r h', Returns (fun k => malloc base sbrk k h nbytes) (r,h') ∧
          (r ≠ 0 → nbytes ≤ 8*(h'.size (r-8)-1))) ∧
      ∀ b ∈ live, ∃ h', Returns (fun k => free k h (b.addr+8)) h' := by
  obtain ⟨fs,hs⟩ := hrun.sound hfresh hbase
  refine ⟨fs,hs,fun nbytes hsmall => ?_,fun b hb => ?_⟩
  · obtain ⟨⟨r,h'⟩,hret,he⟩ := malloc_ended hfresh hbase hs (units_small hsmall) hsmall
    refine ⟨r,h',hret,fun hr => ?_⟩
    rcases he with ⟨hz,-⟩ | ⟨b,fs',hres,hsize,hs'⟩
    · exact absurd hz hr
    · change r = b.addr+8 at hres
      rw [hres, Nat.add_sub_cancel, hs'.blocks.sizes b (by simp), hsize, unitsFor]
      omega
  · obtain ⟨h',fs',hret,-⟩ := hs.free hb
    exact ⟨h',hret⟩

end

/-! ### The `sbrk` of the kernel -/

def KERNBASE : ℕ := 0x80000000

/-- A process of `sz` bytes, with the memory that `sbrk` has granted. -/
structure Proc where
  sz : ℕ
  got : List Span

/-- `growproc` on the size, `n` the bits of an `int`; `mem` says whether `allocuvm` finds
the pages. -/
def growproc (mem : ℕ → ℕ → Bool) (sz n : ℕ) : Option ℕ :=
  if 0 < n ∧ n < 2^31 then
    let newsz := (sz+n)%2^32
    if KERNBASE ≤ newsz then none
    else if newsz < sz then some sz
    else if mem sz newsz then some newsz else none
  else if 2^31 ≤ n then
    let newsz := (sz+n)%2^32
    let newsz := if sz ≤ newsz then sz else newsz
    if newsz = 0 then none else some newsz
  else some sz

def sbrk (mem : ℕ → ℕ → Bool) (s : Proc) (n : ℕ) : Option ℕ × Proc :=
  match growproc mem s.sz n with
  | none => (none, s)
  | some sz => (some s.sz, ⟨sz,if n < 2^31 then ⟨s.sz,s.sz+n⟩::s.got else s.got⟩)

/-- The program lies below its heap, and the heap below the kernel. -/
structure InBreak (base : ℕ) (s : Proc) : Prop where
  low : base+8 ≤ s.sz
  high : s.sz < KERNBASE
  below : ∀ g ∈ s.got, g.hi ≤ s.sz

theorem growproc_small {mem : ℕ → ℕ → Bool} {sz n sz' : ℕ} (hsz : sz < KERNBASE) (hn : n < 2^31)
    (h : growproc mem sz n = some sz') : sz' = sz+n ∧ sz' < KERNBASE := by
  rw [KERNBASE] at *
  rw [growproc, KERNBASE] at h
  split at h
  · next hpos =>
    dsimp only at h
    rw [Nat.mod_eq_of_lt (by omega)] at h
    split at h
    · cases h
    · split at h
      · omega
      · split at h
        · cases h
          omega
        · cases h
  · split at h
    · omega
    · cases h
      omega

theorem sbrk_fresh (base : ℕ) (mem : ℕ → ℕ → Bool) : Fresh base (sbrk mem) Proc.got (InBreak base) where
  fails s n s' hok _ hs := by
    rw [sbrk] at hs
    split at hs
    · cases hs
      exact ⟨hok,rfl⟩
    · cases hs
  grants s n p s' hok hn hs := by
    rw [sbrk] at hs
    split at hs
    · cases hs
    · next sz hgrow =>
      obtain ⟨rfl,hhigh⟩ := growproc_small hok.high hn hgrow
      rw [if_pos hn] at hs
      cases hs
      refine ⟨⟨by have := hok.low; dsimp only; omega,hhigh,?_⟩,rfl,hok.below,hok.low,?_⟩
      · refine List.forall_mem_cons.mpr ⟨le_rfl,fun g hg => ?_⟩
        exact (hok.below g hg).trans (Nat.le_add_right _ _)
      · rw [KERNBASE] at hhigh
        omega

/-- A program of two pages before its first call, its `base` at the second. -/
def fresh : Heap Proc := ⟨fun _ => ⟨0,0⟩,0,⟨8192,[]⟩⟩

theorem fresh_run (mem : ℕ → ℕ → Bool) : Run 4096 (sbrk mem) Proc.got (InBreak 4096) fresh [] :=
  .start rfl ⟨by decide,by decide,fun g hg => (by cases hg)⟩ rfl

theorem heap_stays_sound_fresh :
    ∃ fs, Sound 4096 Proc.got (InBreak 4096) fresh fs [] ∧
      (∀ nbytes, 8*unitsFor nbytes < 2^31 →
        ∃ r h', Returns (fun k => malloc 4096 (sbrk fun _ _ => true) k fresh nbytes) (r,h') ∧
          (r ≠ 0 → nbytes ≤ 8*(h'.size (r-8)-1))) ∧
      ∀ b ∈ ([] : List Blk), ∃ h', Returns (fun k => free k fresh (b.addr+8)) h' :=
  heap_stays_sound (by decide) (sbrk_fresh 4096 fun _ _ => true) (fresh_run _)

variable {base : ℕ} {mem : ℕ → ℕ → Bool} {h : Heap Proc} {live : List Blk}

end Xv6.Umalloc
