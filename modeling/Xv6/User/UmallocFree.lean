import Xv6.User.Umalloc

/-!
# `free`

The loop finds the free block below the one to be freed, and the two joins put it between
this block and the next, with no block left next to another. Before the joins the block is
one of the memory's but on no list, which is also how `morecore` hands new memory over.
-/

set_option autoImplicit false

namespace Xv6.Umalloc
open Xv6.Cycle Xv6.Tiling

variable {S : Type} {base : ℕ} {granted : S → List Span} {h h' : Heap S} {b c : Blk}
  {fs lower upper live : List Blk} {p : ℕ}

/-- The address of the last of the blocks, or of `base`. -/
def lastAddr (base : ℕ) (fs : List Blk) : ℕ := (fs.map Blk.addr).getLastD base

theorem lastAddr_cases (base : ℕ) (fs : List Blk) :
    (fs = [] ∧ lastAddr base fs = base) ∨ ∃ fs' f, fs = fs'++[f] ∧ lastAddr base fs = f.addr := by
  rcases List.eq_nil_or_concat fs with rfl | ⟨fs',f,rfl⟩
  · exact .inl ⟨rfl,rfl⟩
  · refine .inr ⟨fs',f,by simp,?_⟩
    simp [lastAddr]

theorem lastAddr_mem (base : ℕ) (fs : List Blk) : lastAddr base fs ∈ base::fs.map Blk.addr :=
  List.getLastD_mem_cons

theorem Rep.sorted (hr : Rep base h fs) (hb : ∀ b ∈ fs, base < b.addr) :
    (base::fs.map Blk.addr).Pairwise (· < ·) := by
  refine List.pairwise_cons.mpr ⟨?_,List.pairwise_map.mpr (hr.gaps.imp ?_)⟩
  · intro a ha
    obtain ⟨b,hm,rfl⟩ := List.mem_map.mp ha
    exact hb b hm
  · intro b c hgap
    have : b.addr+8*b.size < c.addr := hgap
    omega

/-! ### The joins -/

/-- The block to be freed with the one above it, if that begins where it ends. -/
structure Joined (base : ℕ) (granted : S → List Span) (h h' : Heap S) (b c : Blk)
    (lower upper live : List Blk) : Prop where
  addr : c.addr = b.addr
  size : b.size ≤ c.size
  blocks : Blocks base granted h' (c::(lower++upper++live))
  walk : Walk h'.ptr c.addr (upper.map Blk.addr) base
  above : ∀ f ∈ upper, c.stop < f.addr
  gaps : upper.Pairwise fun b c => b.stop < c.addr
  ptrs : ∀ a, a ≠ b.addr → h'.ptr a = h.ptr a
  sizes : ∀ a, a ≠ b.addr → h'.size a = h.size a

theorem joinUpper_joined (hb : Blocks base granted h (b::(lower++upper++live)))
    (hw : Walk h.ptr p (upper.map Blk.addr) base) (hup : ∀ f ∈ upper, b.addr < f.addr)
    (hgaps : upper.Pairwise fun b c => b.stop < c.addr) :
    ∃ c upper', Joined base granted h (joinUpper h b.addr p) b c lower upper' live := by
  have hsize := hb.sizes b List.mem_cons_self
  obtain ⟨hlow,hfit,hpos⟩ := hb.fits (b := b) List.mem_cons_self
  have hstop : units b.addr (h.size b.addr) = b.addr+8*b.size := by
    rw [hsize, units, Nat.mod_eq_of_lt hfit]
  have habove : ∀ f ∈ upper, b.addr+8*b.size ≤ f.addr := by
    intro f hf
    have hap := hb.apart (c := f) (by simp [hf])
    have := hup f hf
    omega
  have hmove : ∀ (k : Heap S) (l : List Blk) (x : ℕ), (∀ f ∈ l, f ∈ upper) → Walk h.ptr x (l.map Blk.addr) base →
      k.ptr = h.ptr → Walk (k.setPtr b.addr (h.ptr x)).ptr b.addr (l.map Blk.addr) base := by
    intro k l x hl hx hk
    rw [ptr_setPtr, hk]
    refine hx.move (Function.update_self ..) fun a ha => Function.update_of_ne ?_ ..
    obtain ⟨f,hf,rfl⟩ := List.mem_map.mp ha
    exact (hup f (hl f hf)).ne'
  rw [joinUpper]
  split
  · next hadj =>
    rw [hstop] at hadj
    cases upper with
    | nil =>
      have : h.ptr p = base := hw
      omega
    | cons f upper =>
      obtain ⟨hpf,hwf⟩ := hw
      rw [hpf] at hadj ⊢
      have hpos' := (hb.fits (b := f) (by simp)).2
      have hfsize := hb.sizes f (by simp)
      have hperm : (b::(lower++f::upper++live)).Perm (b::f::(lower++upper++live)) := by
        simp only [List.append_assoc, List.cons_append]
        exact List.Perm.cons b List.perm_middle
      have hb' := hb.perm hperm
      have hsum : (h.size b.addr+h.size f.addr)%2^32 = b.size+f.size := by
        rw [hsize, hfsize]
        exact Nat.mod_eq_of_lt (by omega)
      rw [hsum]
      dsimp only
      obtain ⟨hg1,hg2⟩ := List.pairwise_cons.mp hgaps
      refine ⟨⟨b.addr,b.size+f.size⟩,upper,rfl,Nat.le_add_right _ _,hb'.join hadj rfl ?_,?_,?_,hg2,?_,?_⟩
      · rw [size_setPtr, size_setSize]
      · rw [ptr_setSize, hpf]
        exact hmove _ upper f.addr (fun x hx => List.mem_cons_of_mem _ hx) hwf (ptr_setSize ..)
      · intro x hx
        have hgap : f.addr+8*f.size < x.addr := hg1 x hx
        change b.addr+8*(b.size+f.size) < x.addr
        omega
      · intro a ha
        rw [ptr_setPtr, ptr_setSize, Function.update_of_ne ha]
      · intro a ha
        rw [size_setPtr, size_setSize, Function.update_of_ne ha]
  · next hadj =>
    rw [hstop] at hadj
    refine ⟨b,upper,rfl,le_rfl,hb.congr rfl fun x _ => by rw [size_setPtr],
      hmove h upper p (fun x hx => hx) hw rfl,?_,hgaps,?_,?_⟩
    · intro f hf
      change b.addr+8*b.size < f.addr
      cases upper with
      | nil => cases hf
      | cons f0 upper =>
        rw [show h.ptr p = f0.addr from hw.1] at hadj
        have hf0 := habove f0 List.mem_cons_self
        rcases List.mem_cons.mp hf with rfl | hf
        · omega
        · have hgap : f0.addr+8*f0.size < f.addr := (List.pairwise_cons.mp hgaps).1 f hf
          omega
    · intro a ha
      rw [ptr_setPtr, Function.update_of_ne ha]
    · intro a _
      rw [size_setPtr]

theorem gaps_insert (hlow : lower.Pairwise fun b c => b.stop < c.addr)
    (hup : upper.Pairwise fun b c => b.stop < c.addr) (hb : ∀ f ∈ lower, f.stop < b.addr)
    (ha : ∀ f ∈ upper, b.stop < f.addr) : (lower++b::upper).Pairwise fun b c => b.stop < c.addr := by
  refine List.pairwise_append.mpr ⟨hlow,List.pairwise_cons.mpr ⟨ha,hup⟩,fun f hf g hg => ?_⟩
  rcases List.mem_cons.mp hg with rfl | hg
  · exact hb f hf
  · have hle : b.addr ≤ b.stop := Nat.le_add_right _ _
    exact (hb f hf).trans_le (hle.trans (ha g hg).le)

structure Freed (base : ℕ) (granted : S → List Span) (h' : Heap S) (n : ℕ) (live fs : List Blk) : Prop where
  rep : Rep base h' fs
  blocks : Blocks base granted h' (fs++live)
  large : ∃ f ∈ fs, n ≤ f.size

theorem joinLower_freed {k : Heap S} {upper' : List Blk} (hj : Joined base granted h k b c lower upper' live)
    (hw : Walk h.ptr base ((lower++upper).map Blk.addr) base) (hbase : base < b.addr) (hzero : h.size base = 0)
    (hlow : ∀ f ∈ lower, base < f.addr ∧ f.addr < b.addr)
    (hgaps : lower.Pairwise fun b c => b.stop < c.addr) :
    ∃ fs, Freed base granted { joinLower k b.addr (lastAddr base lower) with freep := lastAddr base lower }
      b.size live fs := by
  obtain ⟨haddr,hsize,hb,hwalk,habove,hup,hptrs,hsizes⟩ := hj
  have hfit : ∀ f ∈ c::(lower++upper'++live), base+8 ≤ f.addr ∧ f.addr+8*f.size < 2^32 ∧ 0 < f.size :=
    fun f hf => hb.fits hf
  have hsorted : (base::lower.map Blk.addr).Pairwise (· < ·) :=
    List.pairwise_cons.mpr ⟨by simpa using fun f hf => (hlow f hf).1,
      List.pairwise_map.mpr (hgaps.imp fun hgap => lt_of_le_of_lt (Nat.le_add_right _ _) hgap)⟩
  have hnodup := hsorted.imp fun h => ne_of_lt h
  have hbelow : ∀ a ∈ base::lower.map Blk.addr, a < b.addr := by
    intro a ha
    rcases List.mem_cons.mp ha with rfl | ha
    · exact hbase
    · obtain ⟨f,hf,rfl⟩ := List.mem_map.mp ha
      exact (hlow f hf).2
  have hp := hbelow _ (lastAddr_mem base lower)
  have hpsize : k.size (lastAddr base lower) = h.size (lastAddr base lower) := hsizes _ hp.ne
  have hkzero : k.size base = 0 := (hsizes base hbase.ne).trans hzero
  -- what the last store into the list changes, in both cases
  have hother : ∀ (v a : ℕ), a ∈ base::lower.map Blk.addr → a ≠ lastAddr base lower →
      Function.update k.ptr (lastAddr base lower) v a = h.ptr a := fun v a ha hne => by
    rw [Function.update_of_ne hne, hptrs a (hbelow a ha).ne]
  have hupper : ∀ (v a : ℕ), a ∈ c.addr::upper'.map Blk.addr →
      Function.update k.ptr (lastAddr base lower) v a = k.ptr a := by
    intro v a ha
    refine Function.update_of_ne ?_ ..
    rcases List.mem_cons.mp ha with rfl | ha
    · rw [haddr]
      exact hp.ne'
    · obtain ⟨f,hf,rfl⟩ := List.mem_map.mp ha
      have : c.addr+8*c.size < f.addr := habove f hf
      rw [haddr] at this
      omega
  rw [joinLower]
  split
  · next hadj =>
    -- the last block of the lower part ends at the block: they become one
    rcases lastAddr_cases base lower with ⟨rfl,hl⟩ | ⟨lower,f,rfl,hl⟩
    · rw [hl, hkzero, units, Nat.mul_zero, Nat.add_zero, Nat.mod_eq_of_lt] at hadj
      · omega
      · have := hfit c List.mem_cons_self
        omega
    have hffit := hfit f (by simp)
    have hcfit := hfit c List.mem_cons_self
    have hfsize := hb.sizes f (by simp)
    have hcsize := hb.sizes c List.mem_cons_self
    rw [hl, hfsize, units, Nat.mod_eq_of_lt hffit.2.1, ← haddr] at hadj
    have hperm : (c::(lower++[f]++upper'++live)).Perm (f::c::(lower++upper'++live)) := by
      simp only [List.append_assoc, List.cons_append, List.nil_append]
      exact (List.Perm.cons c List.perm_middle).trans (List.Perm.swap f c _)
    have hsum : (k.size f.addr+k.size c.addr)%2^32 = f.size+c.size := by
      rw [hfsize, hcsize]
      exact Nat.mod_eq_of_lt (by omega)
    rw [hl] at hother hupper ⊢
    rw [← haddr, hsum]
    dsimp only
    have hnew : ((k.setSize f.addr (f.size+c.size)).setPtr f.addr
        ((k.setSize f.addr (f.size+c.size)).ptr c.addr)).ptr = Function.update k.ptr f.addr (k.ptr c.addr) := by
      rw [ptr_setPtr, ptr_setSize]
    have hblocks : Blocks base granted ((k.setSize f.addr (f.size+c.size)).setPtr f.addr
        ((k.setSize f.addr (f.size+c.size)).ptr c.addr)) (⟨f.addr,f.size+c.size⟩::(lower++upper'++live)) :=
      (hb.perm hperm).join hadj rfl (by rw [size_setPtr, size_setSize])
    have hg := List.pairwise_append.mp hgaps
    refine ⟨lower++⟨f.addr,f.size+c.size⟩::upper',⟨?_,by simp,?_,?_⟩,?_,⟨f.addr,f.size+c.size⟩,by simp,?_⟩
    · change Walk (Heap.ptr ((k.setSize f.addr (f.size+c.size)).setPtr f.addr _)) _ _ _
      rw [hnew]
      have hmap : (lower++⟨f.addr,f.size+c.size⟩::upper').map Blk.addr =
          (lower++[f]).map Blk.addr++upper'.map Blk.addr := by simp
      rw [hmap]
      rw [List.map_append] at hw
      refine hw.splice hnodup (fun a ha hne => hother _ a ha ?_) ?_
      · rw [← hl]
        exact hne
      · change Walk _ (lastAddr base (lower++[f])) _ _
        rw [hl]
        exact hwalk.move (Function.update_self ..) fun a ha => hupper _ a (List.mem_cons_of_mem _ ha)
    · change Heap.size ((k.setSize f.addr (f.size+c.size)).setPtr f.addr _) base = 0
      rw [size_setPtr, size_setSize, Function.update_of_ne (hlow f (by simp)).1.ne, hkzero]
    · refine gaps_insert hg.1 hup (fun x hx => hg.2.2 x hx f (by simp)) fun x hx => ?_
      have : c.addr+8*c.size < x.addr := habove x hx
      change f.addr+8*(f.size+c.size) < x.addr
      omega
    · refine Blocks.congr (hblocks.perm ?_) rfl fun _ _ => rfl
      simp only [List.append_assoc, List.cons_append]
      exact List.perm_middle.symm
    · exact hsize.trans (Nat.le_add_left _ _)
  · next hadj =>
    have hlast : ∀ f ∈ lower, f.stop < c.addr := by
      intro f hf
      rcases lastAddr_cases base lower with ⟨rfl,-⟩ | ⟨lower,f0,rfl,hl⟩
      · cases hf
      have hle : ∀ x ∈ lower++[f0], x.addr+8*x.size ≤ c.addr := by
        intro x hx
        have hap := hb.apart (c := x) (by simp only [List.mem_append]; exact .inl (.inl (List.mem_append.mp hx)))
        have := (hlow x hx).2
        omega
      rw [hl, hb.sizes f0 (by simp), units, Nat.mod_eq_of_lt (hfit f0 (by simp)).2.1] at hadj
      have hle0 := hle f0 (by simp)
      change f.addr+8*f.size < c.addr
      rcases List.mem_append.mp hf with hx | hx
      · have : f.addr+8*f.size < f0.addr := (List.pairwise_append.mp hgaps).2.2 f hx f0 (by simp)
        omega
      · rw [List.mem_singleton.mp hx]
        omega
    refine ⟨lower++c::upper',⟨?_,?_,?_,gaps_insert hgaps hup hlast habove⟩,?_,c,by simp,hsize⟩
    · change Walk (k.setPtr (lastAddr base lower) b.addr).ptr _ _ _
      rw [ptr_setPtr, List.map_append, List.map_cons]
      rw [List.map_append] at hw
      refine hw.splice hnodup (fun a ha hne => hother _ a ha hne) ⟨?_,?_⟩
      · exact (Function.update_self ..).trans haddr.symm
      · exact hwalk.move (hupper _ _ List.mem_cons_self) fun a ha => hupper _ a (List.mem_cons_of_mem _ ha)
    · have := lastAddr_mem base lower
      rw [List.map_append, ← List.cons_append]
      exact List.mem_append_left _ this
    · change (k.setPtr (lastAddr base lower) b.addr).size base = 0
      rw [size_setPtr, hkzero]
    · refine Blocks.congr (hb.perm ?_) rfl fun x _ => ?_
      · simp only [List.append_assoc, List.cons_append]
        exact List.perm_middle.symm
      · change (k.setPtr (lastAddr base lower) b.addr).size x.addr = _
        rw [size_setPtr]

/-! ### The loop -/

theorem joins_sys (h : Heap S) (bp p : ℕ) : (joinLower (joinUpper h bp p) bp p).sys = h.sys := by
  have hupper : (joinUpper h bp p).sys = h.sys := by
    rw [joinUpper]
    split <;> rfl
  rw [joinLower]
  split <;> exact hupper

theorem split_at (hgaps : fs.Pairwise fun b c => b.stop < c.addr) {a : ℕ} (hne : ∀ f ∈ fs, f.addr ≠ a) :
    ∃ lower upper, fs = lower++upper ∧ (∀ f ∈ lower, f.addr < a) ∧ ∀ f ∈ upper, a < f.addr := by
  induction fs with
  | nil => exact ⟨[],[],rfl,by simp,by simp⟩
  | cons f fs ih =>
    obtain ⟨hf,hrest⟩ := List.pairwise_cons.mp hgaps
    rcases lt_or_gt_of_ne (hne f List.mem_cons_self) with hlt | hgt
    · obtain ⟨lower,upper,rfl,hlow,hup⟩ := ih hrest fun g hg => hne g (List.mem_cons_of_mem f hg)
      exact ⟨f::lower,upper,rfl,List.forall_mem_cons.mpr ⟨hlt,hlow⟩,hup⟩
    · refine ⟨[],f::fs,rfl,by simp,List.forall_mem_cons.mpr ⟨hgt,fun g hg => ?_⟩⟩
      have : f.addr+8*f.size < g.addr := hf g hg
      omega

theorem inSlot_iff {bp : ℕ} : inSlot h bp p = true ↔ Slot h.ptr bp p := by
  simp [inSlot, Slot]

theorem free_returns (hr : Rep base h fs) (hb : Blocks base granted h (b::(fs++live))) :
    ∃ h' fs', Returns (fun k => free k h (b.addr+8)) h' ∧ h'.sys = h.sys ∧
      Freed base granted h' b.size live fs' := by
  have hfit := fun (x : Blk) hx => hb.fits (b := x) hx
  have hbfit := hfit b List.mem_cons_self
  have hbp : (b.addr+8+2^32-8)%2^32 = b.addr := by omega
  have hlow : ∀ f ∈ fs, base < f.addr := fun f hf => by
    have := hfit f (by simp [hf])
    omega
  obtain ⟨lower,upper,rfl,hlo,hup⟩ := split_at hr.gaps fun f hf => show f.addr ≠ b.addr by
    have hap := hb.apart (c := f) (by simp [hf])
    have := hfit f (by simp [hf])
    omega
  have hsorted := hr.sorted hlow
  have hsplit : (lower++upper).map Blk.addr = lower.map Blk.addr++upper.map Blk.addr := List.map_append
  have hw := hr.ring
  have hw' := hw
  rw [hsplit] at hw'
  have hslot : Slot h.ptr b.addr (lastAddr base lower) := by
    refine hw'.slot_exists (by omega) ?_ ?_ (by rw [← hsplit]; exact hsorted)
    · simpa using hlo
    · simpa using hup
  have hmem : lastAddr base lower ∈ base::(lower++upper).map Blk.addr := by
    rw [hsplit, ← List.cons_append]
    exact List.mem_append_left _ (lastAddr_mem base lower)
  have hseek := seek_ring (P := inSlot h b.addr) hw hr.freep hmem (inSlot_iff.mpr hslot)
    fun z hz hpz => hw.slot_unique hsorted (by omega) hz hmem (inSlot_iff.mp hpz) hslot
  have hg := List.pairwise_append.mp hr.gaps
  obtain ⟨c,upper',hj⟩ := joinUpper_joined hb hw'.drop hup hg.2.1
  obtain ⟨fs',hf⟩ := joinLower_freed hj hw (by omega) hr.zero
    (fun f hf => ⟨hlow f (by simp [hf]),hlo f hf⟩) hg.1
  refine ⟨_,fs',?_,?_,hf⟩
  · obtain ⟨k,hk⟩ := hseek
    refine ⟨k,fun j hjk => ?_⟩
    have hfound : seek (inSlot h b.addr) h.ptr j h.freep = some (lastAddr base lower) := hk j hjk
    dsimp only [free]
    rw [hbp, hfound, Option.map_some]
    rfl
  · exact joins_sys h b.addr (lastAddr base lower)

end Xv6.Umalloc
