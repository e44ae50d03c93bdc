import Xv6.User.UmallocFree

/-!
# The heap over a whole run

`malloc` walks the circular list from `freep` around to `freep`. It takes the first block
that is large enough, or none is and it asks for more memory, which `free` puts on the list
where the walk then finds it. So every call returns, and the blocks of the free list and
those in use stay a tiling of the memory that `sbrk` has granted.
-/

set_option autoImplicit false

namespace Xv6.Umalloc
open Xv6.Cycle Xv6.Tiling

variable {S : Type} {base : ℕ} {granted : S → List Span} {h h' : Heap S} {fs live : List Blk}
  {n prev p : ℕ} {sbrk : S → ℕ → Option ℕ × S} {ok : S → Prop}

/-! ### Taking a block -/

/-- `malloc` takes a block of `n` units. -/
structure Taken (base : ℕ) (granted : S → List Span) (n : ℕ) (live : List Blk) (r : ℕ × Heap S)
    (b : Blk) (fs : List Blk) : Prop where
  result : r.1 = b.addr+8
  size : b.size = n
  rep : Rep base r.2 fs
  blocks : Blocks base granted r.2 (fs++b::live)

theorem perm_two (x y : Blk) (l l' m : List Blk) : (x::y::(l++l'++m)).Perm (l++x::l'++y::m) := by
  have h1 : (y::(l++l'++m)).Perm (l++(l'++y::m)) := by
    rw [← List.append_assoc]
    exact List.perm_middle.symm
  rw [List.append_assoc l (x::l'), List.cons_append]
  exact (h1.cons x).trans List.perm_middle.symm

theorem allot_taken (hr : Rep base h fs) (hb : Blocks base granted h (fs++live)) (hn : 0 < n)
    (hprev : prev ∈ base::fs.map Blk.addr) (hlarge : n ≤ h.size (h.ptr prev)) :
    (allot h n prev (h.ptr prev)).2.sys = h.sys ∧
      ∃ b fs', Taken base granted n live (allot h n prev (h.ptr prev)) b fs' := by
  obtain ⟨l1,l2,hfs,hlast⟩ := exists_getLastD hprev
  have hw := hr.ring
  rw [hfs] at hw
  have hrest := hw.drop
  rw [hlast] at hrest
  -- the block is not `base`, which has no units
  cases l2 with
  | nil =>
    rw [show h.ptr prev = base from hrest, hr.zero] at hlarge
    omega
  | cons a l2 =>
    obtain ⟨lower,upper,rfl,hl1,hl2⟩ := List.map_eq_append_iff.mp hfs
    obtain ⟨f,upper,rfl,rfl,rfl⟩ := List.map_eq_cons_iff.mp hl2
    subst hl1
    obtain ⟨hpf,hwf⟩ := hrest
    rw [hpf] at hlarge ⊢
    have hfit := hb.fits (b := f) (by simp)
    have hsize := hb.sizes f (by simp)
    have hperm : (lower++f::upper++live).Perm (f::(lower++upper++live)) := by
      simp only [List.append_assoc, List.cons_append]
      exact List.perm_middle
    have hb' := hb.perm hperm
    have hlow : ∀ x ∈ lower++f::upper, base < x.addr := fun x hx => by
      have := hb.fits (b := x) (List.mem_append_left _ hx)
      omega
    have hsorted := hr.sorted hlow
    obtain ⟨hg1,hg2,hg3⟩ := List.pairwise_append.mp hr.gaps
    have hmem : prev ∈ base::lower.map Blk.addr := by
      rw [← hlast]
      exact List.getLastD_mem_cons
    rw [allot]
    split
    · next heq =>
      refine ⟨rfl,f,lower++upper,Nat.mod_eq_of_lt (by omega),hsize.symm.trans heq,⟨?_,?_,?_,?_⟩,?_⟩
      · change Walk (h.setPtr prev (h.ptr f.addr)).ptr _ _ _
        have hdup := hsorted.imp fun h => ne_of_lt h
        rw [ptr_setPtr, List.map_append]
        rw [List.map_append, ← List.cons_append] at hdup
        refine hw.splice (List.pairwise_append.mp hdup).1 (fun a _ hne => ?_) ?_
        · rw [hlast] at hne
          exact Function.update_of_ne hne ..
        · rw [hlast]
          refine hwf.move (Function.update_self ..) fun a ha => Function.update_of_ne ?_ ..
          rintro rfl
          exact (List.pairwise_append.mp hdup).2.2 a hmem a (List.mem_cons_of_mem _ ha) rfl
      · change prev ∈ _
        rw [List.map_append, ← List.cons_append]
        exact List.mem_append_left _ hmem
      · change (h.setPtr prev (h.ptr f.addr)).size base = 0
        rw [size_setPtr, hr.zero]
      · exact List.pairwise_append.mpr ⟨hg1,(List.pairwise_cons.mp hg2).2,
          fun x hx y hy => hg3 x hx y (List.mem_cons_of_mem _ hy)⟩
      · refine Blocks.congr (hb'.perm List.perm_middle.symm) rfl fun x _ => ?_
        change (h.setPtr prev (h.ptr f.addr)).size x.addr = _
        rw [size_setPtr]
    · next hne =>
      -- the upper part of the block, the list stays
      have hself : (h.setSize f.addr (h.size f.addr-n)).size f.addr = f.size-n := by
        rw [size_setSize, Function.update_self, hsize]
      have hunits : units f.addr (f.size-n) = f.addr+8*(f.size-n) := Nat.mod_eq_of_lt (by omega)
      dsimp only
      rw [hself, hunits]
      refine ⟨rfl,⟨f.addr+8*(f.size-n),n⟩,lower++⟨f.addr,f.size-n⟩::upper,Nat.mod_eq_of_lt (by omega),rfl,
        ⟨?_,?_,?_,?_⟩,?_⟩
      · change Walk ((h.setSize f.addr _).setSize _ n).ptr _ _ _
        rw [ptr_setSize, ptr_setSize]
        have := hr.ring
        simp only [List.map_append, List.map_cons] at this ⊢
        exact this
      · simp only [List.map_append, List.map_cons] at hprev ⊢
        exact hprev
      · have hlt := hlow f (by simp)
        change ((h.setSize f.addr _).setSize _ n).size base = 0
        rw [size_setSize, size_setSize, Function.update_of_ne (by omega), Function.update_of_ne hlt.ne, hr.zero]
      · refine gaps_insert hg1 (List.pairwise_cons.mp hg2).2 (fun x hx => hg3 x hx f (by simp)) fun x hx => ?_
        have : f.addr+8*f.size < x.addr := (List.pairwise_cons.mp hg2).1 x hx
        change f.addr+8*(f.size-n) < x.addr
        omega
      · have hs : Blocks base granted ((h.setSize f.addr (h.size f.addr-n)).setSize (f.addr+8*(f.size-n)) n)
            (⟨f.addr,f.size-n⟩::⟨f.addr+8*(f.size-n),n⟩::(lower++upper++live)) := by
          refine hb'.split (show f.size = f.size-n+n by omega) (by omega) hn rfl ?_
          rw [size_setSize, size_setSize, hsize]
        exact Blocks.congr (hs.perm (perm_two ..)) rfl fun _ _ => rfl

/-! ### The walk -/

/-- The rest of the loop once `malloc` asks for more memory. -/
def asks (sbrk : S → ℕ → Option ℕ × S) (n : ℕ) (h : Heap S) (k : ℕ) : Option (ℕ × Heap S) :=
  (morecore sbrk k h n).bind fun r =>
    if r.1 = 0 then some (0, r.2) else search sbrk n k r.2 r.1 (r.2.ptr r.1)

theorem search_large (hn : n ≤ h.size p) :
    Returns (fun k => search sbrk n k h prev p) (allot h n prev p) :=
  Returns.succ (Returns.always fun k => by rw [search, if_pos hn])

theorem search_asks (hn : ¬ n ≤ h.size h.freep) {r : ℕ × Heap S} (hr : Returns (asks sbrk n h) r) :
    Returns (fun k => search sbrk n k h prev h.freep) r := by
  refine Returns.succ ?_
  obtain ⟨k,hk⟩ := hr
  refine ⟨k,fun j hj => ?_⟩
  change search sbrk n (j+1) h prev h.freep = some r
  rw [search, if_neg hn, if_pos rfl]
  exact hk j hj

theorem search_next (hn : ¬ n ≤ h.size p) (hp : p ≠ h.freep) {r : ℕ × Heap S}
    (hr : Returns (fun k => search sbrk n k h p (h.ptr p)) r) :
    Returns (fun k => search sbrk n k h prev p) r := by
  refine Returns.succ ?_
  obtain ⟨k,hk⟩ := hr
  refine ⟨k,fun j hj => ?_⟩
  change search sbrk n (j+1) h prev p = some r
  rw [search, if_neg hn, if_neg hp]
  exact hk j hj

theorem search_walk (sbrk : S → ℕ → Option ℕ × S) {l : List ℕ} (hw : Walk h.ptr prev l h.freep)
    (hl : h.freep ∉ l) :
    (∃ u ∈ prev::l, n ≤ h.size (h.ptr u) ∧
      Returns (fun k => search sbrk n k h prev (h.ptr prev)) (allot h n u (h.ptr u))) ∨
    (∀ u ∈ prev::l, ¬ n ≤ h.size (h.ptr u)) ∧ ∀ r, Returns (asks sbrk n h) r →
      Returns (fun k => search sbrk n k h prev (h.ptr prev)) r := by
  induction l generalizing prev with
  | nil =>
    by_cases hn : n ≤ h.size (h.ptr prev)
    · exact .inl ⟨prev,List.mem_cons_self,hn,search_large hn⟩
    · refine .inr ⟨by simpa using hn,fun r hr => ?_⟩
      rw [show h.ptr prev = h.freep from hw] at hn ⊢
      exact search_asks hn hr
  | cons c l ih =>
    by_cases hn : n ≤ h.size (h.ptr prev)
    · exact .inl ⟨prev,List.mem_cons_self,hn,search_large hn⟩
    obtain ⟨hc,hwc⟩ := hw
    have hcf : h.ptr prev ≠ h.freep := by
      rw [hc]
      exact fun he => hl (he ▸ List.mem_cons_self)
    have hstep : ∀ r, Returns (fun k => search sbrk n k h c (h.ptr c)) r →
        Returns (fun k => search sbrk n k h prev (h.ptr prev)) r := by
      intro r hr
      refine search_next hn hcf ?_
      rw [hc]
      exact hr
    rcases ih hwc fun hm => hl (List.mem_cons_of_mem c hm) with ⟨u,hu,hsu,hret⟩ | ⟨hno,hmore⟩
    · exact .inl ⟨u,List.mem_cons_of_mem _ hu,hsu,hstep _ hret⟩
    · exact .inr ⟨List.forall_mem_cons.mpr ⟨hn,hno⟩,fun r hr => hstep r (hmore r hr)⟩

/-- The walk from `freep`: a block is taken, or none is large enough and the walk asks for
more. -/
theorem search_ring (sbrk : S → ℕ → Option ℕ × S) (hr : Rep base h fs)
    (hb : Blocks base granted h (fs++live)) (hn : 0 < n) :
    (∃ r b fs', Returns (fun k => search sbrk n k h h.freep (h.ptr h.freep)) r ∧ r.2.sys = h.sys ∧
      Taken base granted n live r b fs') ∨
    (∀ f ∈ fs, f.size < n) ∧ ∀ r, Returns (asks sbrk n h) r →
      Returns (fun k => search sbrk n k h h.freep (h.ptr h.freep)) r := by
  have hsorted := hr.sorted fun f hf => by
    have := hb.fits (b := f) (List.mem_append_left _ hf)
    omega
  obtain ⟨l,hw,hperm⟩ := hr.ring.rotate hr.freep
  have hdup : (h.freep::l).Nodup := hperm.nodup_iff.mpr (hsorted.imp fun h => ne_of_lt h)
  rcases search_walk sbrk hw (List.nodup_cons.mp hdup).1 with ⟨u,hu,hlarge,hret⟩ | ⟨hno,hmore⟩
  · obtain ⟨hsys,b,fs',ht⟩ := allot_taken hr hb hn (hperm.mem_iff.mp hu) hlarge
    exact .inl ⟨_,b,fs',hret,hsys,ht⟩
  · refine .inr ⟨fun f hf => ?_,hmore⟩
    obtain ⟨u,hu,hptr⟩ := hr.ring.pred (List.mem_cons_of_mem base (List.mem_map_of_mem (f := Blk.addr) hf))
    have := hno u (hperm.mem_iff.mpr hu)
    rw [hptr, hb.sizes f (List.mem_append_left _ hf)] at this
    omega

/-! ### More memory -/

/-- `sbrk` fails, or returns memory above all that it has returned before. -/
structure Fresh (base : ℕ) (sbrk : S → ℕ → Option ℕ × S) (granted : S → List Span) (ok : S → Prop) :
    Prop where
  fails : ∀ s n s', ok s → 8*n < 2^31 → sbrk s (8*n) = (none, s') → ok s' ∧ granted s' = granted s
  grants : ∀ s n p s', ok s → 8*n < 2^31 → sbrk s (8*n) = (some p, s') →
    ok s' ∧ granted s' = ⟨p,p+8*n⟩::granted s ∧ (∀ g ∈ granted s, g.hi ≤ p) ∧
      base+8 ≤ p ∧ p+8*n < 2^32

/-- The heap between two calls. -/
structure Sound (base : ℕ) (granted : S → List Span) (ok : S → Prop) (h : Heap S) (fs live : List Blk) :
    Prop where
  sys : ok h.sys
  blocks : Blocks base granted h (fs++live)
  list : Rep base h fs ∨ (h.freep = 0 ∧ fs = [] ∧ live = [])

/-- The units that `morecore` asks for. -/
def request (n : ℕ) : ℕ := if n < 4096 then 4096 else n

/-- How `malloc` ends: without a block, `sbrk` having failed, and the free blocks are what
they were, or with a block of `n` units. -/
def Ended (base : ℕ) (sbrk : S → ℕ → Option ℕ × S) (granted : S → List Span) (ok : S → Prop) (s : S)
    (n : ℕ) (fs live : List Blk) (r : ℕ × Heap S) : Prop :=
  (r.1 = 0 ∧ Sound base granted ok r.2 fs live ∧ sbrk s (8*request n) = (none, r.2.sys)) ∨
    ∃ b fs', r.1 = b.addr+8 ∧ b.size = n ∧ Sound base granted ok r.2 fs' (b::live)

theorem morecore_fails {s : S} (hs : sbrk h.sys (request n*8%2^32) = (none, s)) (k : ℕ) :
    morecore sbrk k h n = some (0, { h with sys := s }) := by
  rw [request] at hs
  simp only [morecore, hs]

theorem morecore_grants {s : S} (hs : sbrk h.sys (request n*8%2^32) = (some p, s)) (k : ℕ) :
    morecore sbrk k h n =
      (free k (Heap.setSize { h with sys := s } p (request n)) ((p+8)%2^32)).map fun h => (h.freep, h) := by
  rw [request] at hs ⊢
  simp only [morecore, hs]

theorem Blocks.fresh (hb : Blocks base granted h fs) {s : S} {m : ℕ} (hg : granted s = ⟨p,p+8*m⟩::granted h.sys)
    (habove : ∀ g ∈ granted h.sys, g.hi ≤ p) (hlow : base+8 ≤ p) (hhigh : p+8*m < 2^32) (hm : 0 < m) :
    Blocks base granted (Heap.setSize { h with sys := s } p m) (⟨p,m⟩::fs) := by
  refine ⟨?_,fun f hf => ?_,?_⟩
  · change Tiles (granted s) _
    rw [hg]
    exact hb.tiles.fresh habove (by omega)
  · rw [size_setSize, Function.update_apply]
    rcases List.mem_cons.mp hf with rfl | hf
    · rw [if_pos rfl]
    · have h1 := hb.tiles.within (fun g hgm => ⟨Nat.zero_le _,habove g hgm⟩) (List.mem_map_of_mem hf)
      have h2 := hb.fits hf
      simp only [Blk.span, Blk.stop] at h1
      rw [if_neg (by omega)]
      exact hb.sizes f hf
  · change ∀ g ∈ granted s, _
    rw [hg]
    exact List.forall_mem_cons.mpr ⟨⟨hlow,by dsimp only; omega⟩,hb.bounds⟩

theorem asks_ended (hfresh : Fresh base sbrk granted ok) (h0 : 0 < base) (hok : ok h.sys) (hr : Rep base h fs)
    (hb : Blocks base granted h (fs++live)) (hn : 0 < n) (hsmall : 8*n < 2^31) :
    ∃ r, Returns (asks sbrk n h) r ∧ Ended base sbrk granted ok h.sys n fs live r := by
  have hm : n ≤ request n ∧ 8*request n < 2^31 := by
    rw [request]
    split <;> omega
  have hcall : sbrk h.sys (request n*8%2^32) = sbrk h.sys (8*request n) := by
    congr 1
    omega
  generalize hs : sbrk h.sys (8*request n) = x
  obtain ⟨o,s⟩ := x
  rw [hs] at hcall
  cases o with
  | none =>
    obtain ⟨hok',hg⟩ := hfresh.fails _ _ _ hok hm.2 hs
    refine ⟨(0,{ h with sys := s }),Returns.always fun k => ?_,.inl ⟨rfl,⟨hok',?_,.inl ⟨hr.ring,hr.freep,hr.zero,hr.gaps⟩⟩,hs⟩⟩
    · rw [asks, morecore_fails hcall]
      rfl
    · exact hb.congr hg fun _ _ => rfl
  | some p =>
    obtain ⟨hok',hg,habove,hlow,hhigh⟩ := hfresh.grants _ _ _ _ hok hm.2 hs
    have hb1 := hb.fresh hg habove hlow hhigh (by omega)
    have hr1 : Rep base (Heap.setSize { h with sys := s } p (request n)) fs := by
      refine ⟨?_,hr.freep,?_,hr.gaps⟩
      · rw [ptr_setSize]
        exact hr.ring
      · rw [size_setSize, Function.update_of_ne (by omega)]
        exact hr.zero
    obtain ⟨h2,fs2,hfree,hsys,hf⟩ := free_returns hr1 hb1
    have hok2 : ok h2.sys := by
      rw [hsys]
      exact hok'
    have hmore : Returns (fun k => morecore sbrk k h n) (h2.freep,h2) := by
      obtain ⟨k,hk⟩ := hfree
      refine ⟨k,fun j hj => ?_⟩
      have hj' : free j (Heap.setSize { h with sys := s } p (request n)) (p+8) = some h2 := hk j hj
      dsimp only
      rw [morecore_grants hcall, Nat.mod_eq_of_lt (show p+8 < 2^32 by omega), hj', Option.map_some]
    have hnz : h2.freep ≠ 0 := by
      rcases List.mem_cons.mp hf.rep.freep with he | hmem
      · omega
      · obtain ⟨f,hfm,he⟩ := List.mem_map.mp hmem
        have := hf.blocks.fits (b := f) (List.mem_append_left _ hfm)
        omega
    rcases search_ring sbrk hf.rep hf.blocks hn with ⟨r,b,fs',hret,hsys',ht⟩ | ⟨hno,-⟩
    · refine ⟨r,hmore.bind ?_,.inr ⟨b,fs',ht.result,ht.size,?_,ht.blocks,.inl ht.rep⟩⟩
      · simp only [if_neg hnz]
        exact hret
      · rw [hsys']
        exact hok2
    · obtain ⟨f,hfm,hlarge⟩ := hf.large
      have := hno f hfm
      have hle : request n ≤ f.size := hlarge
      omega

theorem search_ended (hfresh : Fresh base sbrk granted ok) (h0 : 0 < base) (hok : ok h.sys) (hr : Rep base h fs)
    (hb : Blocks base granted h (fs++live)) (hn : 0 < n) (hsmall : 8*n < 2^31) :
    ∃ r, Returns (fun k => search sbrk n k h h.freep (h.ptr h.freep)) r ∧
      Ended base sbrk granted ok h.sys n fs live r := by
  rcases search_ring sbrk hr hb hn with ⟨r,b,fs',hret,hsys,ht⟩ | ⟨-,hmore⟩
  · refine ⟨r,hret,.inr ⟨b,fs',ht.result,ht.size,?_,ht.blocks,.inl ht.rep⟩⟩
    rw [hsys]
    exact hok
  · obtain ⟨r,hret,he⟩ := asks_ended hfresh h0 hok hr hb hn hsmall
    exact ⟨r,hmore r hret,he⟩

/-- `malloc` returns from every sound heap, as long as the bytes of the units do not wrap. -/
theorem malloc_ended (hfresh : Fresh base sbrk granted ok) (h0 : 0 < base) (hs : Sound base granted ok h fs live)
    {nbytes : ℕ} (hn : (nbytes+8-1)%2^32/8+1 = n) (hsmall : 8*n < 2^31) :
    ∃ r, Returns (fun k => malloc base sbrk k h nbytes) r ∧ Ended base sbrk granted ok h.sys n fs live r := by
  simp only [malloc, hn]
  rcases hs.list with hr | ⟨hz,rfl,rfl⟩
  · have hnz : h.freep ≠ 0 := by
      rcases List.mem_cons.mp hr.freep with he | hmem
      · omega
      · obtain ⟨f,hfm,he⟩ := List.mem_map.mp hmem
        have := hs.blocks.fits (b := f) (List.mem_append_left _ hfm)
        omega
    rw [if_neg hnz]
    exact search_ended hfresh h0 hs.sys hr hs.blocks (by omega) hsmall
  · rw [if_pos hz]
    refine search_ended hfresh h0 hs.sys ⟨?_,List.mem_cons_self,?_,List.Pairwise.nil⟩
      (hs.blocks.congr rfl fun b hb => by cases hb) (by omega) hsmall
    · change ((h.setPtr base base).setSize base 0).ptr base = base
      rw [ptr_setSize, ptr_setPtr, Function.update_self]
    · change ((h.setPtr base base).setSize base 0).size base = 0
      rw [size_setSize, Function.update_self]

end Xv6.Umalloc
