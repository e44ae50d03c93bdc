import Xv6.Lib.Cycle
import Xv6.Lib.Tiling

/-!
# The allocator of user programs

`malloc` and `free` of `umalloc.c`. The heap is the headers in memory, each found at its
address, with the variable `freep`; a pointer is an address and a step of one header is
eight bytes. `sbrk` is a function of the state of the system, given the 32 bits of its
argument; no address stands for the pointer -1. The loops take a bound on their rounds.
-/

set_option autoImplicit false

namespace Xv6.Umalloc
open Xv6.Cycle Xv6.Tiling

structure Header where
  ptr : ℕ
  size : ℕ

structure Heap (S : Type) where
  hdr : ℕ → Header
  freep : ℕ
  sys : S

variable {S : Type}

def Heap.ptr (h : Heap S) (p : ℕ) : ℕ := (h.hdr p).ptr

def Heap.size (h : Heap S) (p : ℕ) : ℕ := (h.hdr p).size

def Heap.setPtr (h : Heap S) (p v : ℕ) : Heap S :=
  { h with hdr := Function.update h.hdr p { h.hdr p with ptr := v } }

def Heap.setSize (h : Heap S) (p v : ℕ) : Heap S :=
  { h with hdr := Function.update h.hdr p { h.hdr p with size := v } }

/-- `p+n` for a pointer to headers. -/
def units (p n : ℕ) : ℕ := (p+8*n)%2^32

/-- The test of the loop of `free` fails here, or the loop breaks. -/
def inSlot (h : Heap S) (bp p : ℕ) : Bool :=
  (p < bp && bp < h.ptr p) || (h.ptr p ≤ p && (p < bp || bp < h.ptr p))

def joinUpper (h : Heap S) (bp p : ℕ) : Heap S :=
  if units bp (h.size bp) = h.ptr p then
    let h := h.setSize bp ((h.size bp+h.size (h.ptr p))%2^32)
    h.setPtr bp (h.ptr (h.ptr p))
  else h.setPtr bp (h.ptr p)

def joinLower (h : Heap S) (bp p : ℕ) : Heap S :=
  if units p (h.size p) = bp then
    let h := h.setSize p ((h.size p+h.size bp)%2^32)
    h.setPtr p (h.ptr bp)
  else h.setPtr p bp

def free (k : ℕ) (h : Heap S) (ap : ℕ) : Option (Heap S) :=
  let bp := (ap+2^32-8)%2^32
  (seek (inSlot h bp) h.ptr k h.freep).map fun p =>
    { joinLower (joinUpper h bp p) bp p with freep := p }

section
variable (base : ℕ) (sbrk : S → ℕ → Option ℕ × S)

def morecore (k : ℕ) (h : Heap S) (nu : ℕ) : Option (ℕ × Heap S) :=
  let nu := if nu < 4096 then 4096 else nu
  match sbrk h.sys (nu*8%2^32) with
  | (none, s) => some (0, { h with sys := s })
  | (some p, s) =>
    (free k (Heap.setSize { h with sys := s } p nu) ((p+8)%2^32)).map fun h => (h.freep, h)

/-- The part of `malloc` that takes a block from the list. -/
def allot (h : Heap S) (nunits prevp p : ℕ) : ℕ × Heap S :=
  if h.size p = nunits then ((p+8)%2^32, { h.setPtr prevp (h.ptr p) with freep := prevp })
  else
    let h := h.setSize p (h.size p-nunits)
    let p := units p (h.size p)
    ((p+8)%2^32, { h.setSize p nunits with freep := prevp })

/-- The loop of `malloc`. -/
def search (nunits : ℕ) : ℕ → Heap S → ℕ → ℕ → Option (ℕ × Heap S)
  | 0, _, _, _ => none
  | k+1, h, prevp, p =>
    if nunits ≤ h.size p then some (allot h nunits prevp p)
    else if p = h.freep then
      (morecore sbrk k h nunits).bind fun r =>
        if r.1 = 0 then some (0, r.2) else search nunits k r.2 r.1 (r.2.ptr r.1)
    else search nunits k h p (h.ptr p)

def malloc (k : ℕ) (h : Heap S) (nbytes : ℕ) : Option (ℕ × Heap S) :=
  let nunits := (nbytes+8-1)%2^32/8+1
  let h := if h.freep = 0 then { (h.setPtr base base).setSize base 0 with freep := base } else h
  search sbrk nunits k h h.freep (h.ptr h.freep)

end

theorem ptr_setPtr (h : Heap S) (p v : ℕ) : (h.setPtr p v).ptr = Function.update h.ptr p v := by
  funext a
  simp only [Heap.ptr, Heap.setPtr, Function.update_apply]
  split <;> rfl

theorem size_setPtr (h : Heap S) (p v : ℕ) : (h.setPtr p v).size = h.size := by
  funext a
  simp only [Heap.size, Heap.setPtr, Function.update_apply]
  split
  · next ha => rw [ha]
  · rfl

theorem ptr_setSize (h : Heap S) (p v : ℕ) : (h.setSize p v).ptr = h.ptr := by
  funext a
  simp only [Heap.ptr, Heap.setSize, Function.update_apply]
  split
  · next ha => rw [ha]
  · rfl

theorem size_setSize (h : Heap S) (p v : ℕ) : (h.setSize p v).size = Function.update h.size p v := by
  funext a
  simp only [Heap.size, Heap.setSize, Function.update_apply]
  split <;> rfl

/-! ### Blocks -/

structure Blk where
  addr : ℕ
  size : ℕ
  deriving DecidableEq

def Blk.stop (b : Blk) : ℕ := b.addr+8*b.size

def Blk.span (b : Blk) : Span := ⟨b.addr,b.stop⟩

/-- The blocks are the memory granted, each with its size in its header. -/
structure Blocks (base : ℕ) (granted : S → List Span) (h : Heap S) (bs : List Blk) : Prop where
  tiles : Tiles (granted h.sys) (bs.map Blk.span)
  sizes : ∀ b ∈ bs, h.size b.addr = b.size
  bounds : ∀ g ∈ granted h.sys, base+8 ≤ g.lo ∧ g.hi ≤ 2^32-1

section
variable {base : ℕ} {granted : S → List Span} {h h' : Heap S} {b c : Blk} {bs bs' : List Blk}

theorem Blocks.perm (hb : Blocks base granted h bs) (hp : bs.Perm bs') : Blocks base granted h bs' :=
  ⟨hb.tiles.perm (hp.map _),fun b hm => hb.sizes b (hp.mem_iff.mpr hm),hb.bounds⟩

theorem Blocks.fits (hb : Blocks base granted h bs) (hm : b ∈ bs) :
    base+8 ≤ b.addr ∧ b.addr+8*b.size < 2^32 ∧ 0 < b.size := by
  have hs := List.mem_map_of_mem (f := Blk.span) hm
  have h1 := hb.tiles.within hb.bounds hs
  have h2 := hb.tiles.nonempty _ hs
  simp only [Blk.span, Blk.stop] at h1 h2
  omega

theorem Blocks.apart (hb : Blocks base granted h (b::bs)) (hm : c ∈ bs) :
    b.addr+8*b.size ≤ c.addr ∨ c.addr+8*c.size ≤ b.addr :=
  (List.pairwise_cons.mp hb.tiles.apart).1 _ (List.mem_map_of_mem hm)

theorem Blocks.congr (hb : Blocks base granted h bs) (hsys : granted h'.sys = granted h.sys)
    (hs : ∀ b ∈ bs, h'.size b.addr = h.size b.addr) : Blocks base granted h' bs := by
  refine ⟨?_,fun b hm => (hs b hm).trans (hb.sizes b hm),?_⟩
  · rw [hsys]
    exact hb.tiles
  · rw [hsys]
    exact hb.bounds

theorem Blocks.join (hb : Blocks base granted h (b::c::bs)) (hadj : b.addr+8*b.size = c.addr)
    (hsys : h'.sys = h.sys) (hs : h'.size = Function.update h.size b.addr (b.size+c.size)) :
    Blocks base granted h' (⟨b.addr,b.size+c.size⟩::bs) := by
  obtain ⟨-,-,hb0⟩ := hb.fits (b := b) List.mem_cons_self
  obtain ⟨-,-,hc0⟩ := hb.fits (b := c) (by simp)
  have hstop : b.addr+8*(b.size+c.size) = c.addr+8*c.size := by omega
  refine ⟨?_,fun d hd => ?_,?_⟩
  · rw [hsys, List.map_cons, Blk.span, Blk.stop, hstop]
    refine (Tiles.cut (show b.addr < c.addr by omega) (show c.addr < c.addr+8*c.size by omega)).mpr ?_
    have ht := hb.tiles
    rw [List.map_cons, List.map_cons, Blk.span, Blk.span, Blk.stop, Blk.stop, hadj] at ht
    exact ht
  · rw [hs, Function.update_apply]
    rcases List.mem_cons.mp hd with rfl | hd
    · rw [if_pos rfl]
    · have hap := hb.apart (c := d) (List.mem_cons_of_mem _ hd)
      obtain ⟨-,-,hd0⟩ := hb.fits (b := d) (by simp [hd])
      rw [if_neg (by omega)]
      exact hb.sizes d (by simp [hd])
  · rw [hsys]
    exact hb.bounds

theorem Blocks.split (hb : Blocks base granted h (b::bs)) {s n : ℕ} (hbs : b.size = s+n) (hs0 : 0 < s)
    (hn0 : 0 < n) (hsys : h'.sys = h.sys)
    (hs : h'.size = Function.update (Function.update h.size b.addr s) (b.addr+8*s) n) :
    Blocks base granted h' (⟨b.addr,s⟩::⟨b.addr+8*s,n⟩::bs) := by
  refine ⟨?_,fun d hd => ?_,?_⟩
  · have ht := hb.tiles
    have hstop : b.addr+8*b.size = b.addr+8*s+8*n := by omega
    rw [List.map_cons, Blk.span, Blk.stop, hstop] at ht
    rw [hsys]
    exact (Tiles.cut (show b.addr < b.addr+8*s by omega) (show b.addr+8*s < b.addr+8*s+8*n by omega)).mp ht
  · rw [hs, Function.update_apply, Function.update_apply]
    rcases List.mem_cons.mp hd with rfl | hd
    · rw [if_neg (by dsimp only; omega), if_pos rfl]
    rcases List.mem_cons.mp hd with rfl | hd
    · rw [if_pos rfl]
    · have hap := hb.apart hd
      obtain ⟨-,-,hd0⟩ := hb.fits (b := d) (by simp [hd])
      rw [if_neg (by omega), if_neg (by omega)]
      exact hb.sizes d (by simp [hd])
  · rw [hsys]
    exact hb.bounds

end

/-- The free list: circular from `base`, upward, with a gap behind each block. -/
structure Rep (base : ℕ) (h : Heap S) (fs : List Blk) : Prop where
  ring : Walk h.ptr base (fs.map Blk.addr) base
  freep : h.freep ∈ base::fs.map Blk.addr
  zero : h.size base = 0
  gaps : fs.Pairwise fun b c => b.stop < c.addr

end Xv6.Umalloc
