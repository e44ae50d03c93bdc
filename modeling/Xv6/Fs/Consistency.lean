import Xv6.Fs.Icache
import Xv6.Fs.Names

/-!
# Consistency over runs

The invariant of the file system between operations: the disk is consistent, at most
one entry of the cache is in use for an inode, and a loaded entry equals the inode on
the disk. Every operation keeps it and none comes to the panic of `bfree`.
-/

set_option autoImplicit false

namespace Xv6.Fs
open Xv6.Halting

/-- At most one entry is in use for an inode, and a valid one is the inode on the disk. -/
structure Coherent (sb : Super) (s : Sys) : Prop where
  one : ∀ k l, 0 < (s.cache k).ref → 0 < (s.cache l).ref →
    (s.cache k).inum = (s.cache l).inum → k = l
  loaded : ∀ k, s.Locked k → (s.cache k).inum < sb.ninodes ∧
    (s.cache k).ip = dinode sb s.store.disk (s.cache k).inum ∧ (s.cache k).ip.type ≠ 0

variable {sb : Super} {s : Sys} {k : Fin NINODE}

theorem Coherent.replace (h : Coherent sb s) {st : Store} {e : Entry}
    (hone : 0 < e.ref → ∀ l, l ≠ k → 0 < (s.cache l).ref → (s.cache l).inum ≠ e.inum)
    (hload : 0 < e.ref → e.valid = true →
      e.inum < sb.ninodes ∧ e.ip = dinode sb st.disk e.inum ∧ e.ip.type ≠ 0)
    (hkeep : ∀ l, l ≠ k → s.Locked l →
      dinode sb st.disk (s.cache l).inum = dinode sb s.store.disk (s.cache l).inum) :
    Coherent sb { store := st, cache := Function.update s.cache k e } := by
  have hcache : ∀ l, Function.update s.cache k e l = if l = k then e else s.cache l :=
    fun l => Function.update_apply ..
  refine ⟨fun l m hl hm hlm => ?_,fun l hl => ?_⟩
  · dsimp only at hl hm hlm
    rw [hcache] at hl hm
    rw [hcache, hcache] at hlm
    by_cases hlk : l = k <;> by_cases hmk : m = k
    · rw [hlk, hmk]
    · rw [if_pos hlk] at hl hlm
      rw [if_neg hmk] at hm hlm
      exact absurd hlm.symm (hone hl m hmk hm)
    · rw [if_neg hlk] at hl hlm
      rw [if_pos hmk] at hm hlm
      exact absurd hlm (hone hm l hlk hl)
    · rw [if_neg hlk] at hl hlm
      rw [if_neg hmk] at hm hlm
      exact h.one l m hl hm hlm
  · rw [Sys.Locked] at hl
    dsimp only at hl ⊢
    rw [hcache] at hl ⊢
    by_cases hlk : l = k
    · rw [if_pos hlk] at hl ⊢
      exact hload hl.1 hl.2
    · rw [if_neg hlk] at hl ⊢
      obtain ⟨h1,h2,h3⟩ := h.loaded l hl
      exact ⟨h1,by rw [h2, hkeep l hlk hl],h3⟩

/-- The inodes of the other entries in use are not the one that an operation was on. -/
theorem Coherent.apart (h : Coherent sb s) (hk : 0 < (s.cache k).ref) {st : Store} {ip : Inode}
    (hd : Done sb (s.cache k).inum s.store st ip) (l : Fin NINODE) (hlk : l ≠ k)
    (hl : s.Locked l) :
    dinode sb st.disk (s.cache l).inum = dinode sb s.store.disk (s.cache l).inum := by
  have hne : (s.cache l).inum ≠ (s.cache k).inum := fun heq => hlk (h.one l k hl.1 hk heq)
  rw [hd.inode _ (h.loaded l hl).1, Function.update_of_ne hne]

structure Inv (sb : Super) (s : Sys) : Prop where
  sound : Sound sb s.store.disk
  coherent : Coherent sb s

theorem Inv.put (h : Inv sb s) (hk : s.Locked k) {st : Store} {ip : Inode}
    (hd : Done sb (s.cache k).inum s.store st ip) (ht : ip.type ≠ 0) : Inv sb (s.put k st ip) := by
  obtain ⟨hi,-,-⟩ := h.coherent.loaded k hk
  refine ⟨hd.sound,h.coherent.replace ?_ ?_ (h.coherent.apart hk.1 hd)⟩
  · exact fun _ l hlk hl heq => hlk (h.coherent.one l k hl hk.1 heq)
  · exact fun _ _ => ⟨hi,((hd.inode _ hi).trans (Function.update_self ..)).symm,ht⟩

theorem Inv.iget (h : Inv sb s) (inum : ℕ) :
    Yields freeing (fun t => Inv sb t.1 ∧ t.1.store = s.store ∧ 0 < (t.1.cache t.2).ref ∧
      (t.1.cache t.2).inum = inum) (s.iget inum) := by
  rw [Sys.iget]
  split
  · next k hf =>
    have hfound : 0 < (s.cache k).ref ∧ (s.cache k).inum = inum := by
      simpa using List.find?_some hf
    refine Yields.ok ⟨⟨h.sound,h.coherent.replace ?_ ?_ (fun _ _ _ => rfl)⟩,rfl,?_,?_⟩
    · exact fun _ l hlk hl heq => hlk (h.coherent.one l k hl hfound.1 heq)
    · exact fun _ hv => h.coherent.loaded k ⟨hfound.1,hv⟩
    · simp [Sys.set]
    · simp [Sys.set, hfound.2]
  · next hnone =>
    split
    · exact Yields.error (not_freeing (by decide))
    · next k hf =>
      have hnew : ∀ l, 0 < (s.cache l).ref → (s.cache l).inum ≠ inum := by
        intro l hl heq
        have := List.find?_eq_none.mp hnone l (List.mem_finRange l)
        simp [hl, heq] at this
      refine Yields.ok ⟨⟨h.sound,h.coherent.replace ?_ ?_ (fun _ _ _ => rfl)⟩,rfl,?_,?_⟩
      · exact fun _ l _ hl => hnew l hl
      · exact fun _ hv => by cases hv
      · simp [Sys.set]
      · simp [Sys.set]

theorem Inv.ilock (h : Inv sb s) (hk : 0 < (s.cache k).ref) (hi : (s.cache k).inum < sb.ninodes) :
    Yields freeing (fun t => Inv sb t ∧ t.store = s.store ∧ t.Locked k ∧
      (t.cache k).inum = (s.cache k).inum) (s.ilock sb k) := by
  rw [Sys.ilock, if_neg (by omega)]
  split
  · next hv => exact Yields.ok ⟨h,rfl,⟨hk,hv⟩,rfl⟩
  · dsimp only
    split
    · exact Yields.error (not_freeing (by decide))
    · next ht =>
      refine Yields.ok ⟨⟨h.sound,h.coherent.replace ?_ ?_ (fun _ _ _ => rfl)⟩,rfl,?_,?_⟩
      · exact fun _ l hlk hl heq => hlk (h.coherent.one l k hl hk heq)
      · exact fun _ _ => ⟨hi,rfl,ht⟩
      · simp [Sys.Locked, Sys.set, hk]
      · simp [Sys.set]

theorem Inv.drop (h : Inv sb s) (hk : 0 < (s.cache k).ref) :
    Inv sb (s.set k { s.cache k with ref := (s.cache k).ref-1 }) := by
  refine ⟨h.sound,h.coherent.replace ?_ ?_ (fun _ _ _ => rfl)⟩
  · exact fun _ l hlk hl heq => hlk (h.coherent.one l k hl hk heq)
  · exact fun _ hv => h.coherent.loaded k ⟨hk,hv⟩

theorem Done.trans {i : ℕ} {s s' s'' : Store} {ip ip' : Inode} (h : Done sb i s s' ip)
    (h' : Done sb i s' s'' ip') : Done sb i s s'' ip' := by
  refine ⟨h'.sound,fun j hj => ?_⟩
  rw [h'.inode j hj]
  by_cases hji : j = i
  · rw [hji, Function.update_self, Function.update_self]
  · rw [Function.update_of_ne hji, Function.update_of_ne hji, h.inode j hj, Function.update_of_ne hji]

theorem Sound.blank {i : ℕ} {st : Store} {ip : Inode} (hsb : sb.Ok) (h : Sound sb st.disk)
    (hi : i < sb.ninodes) (hz : ∀ q, refs sb st.disk (dinode sb st.disk) (i,q) = 0)
    (hip : Blank ip) : Done sb i st (iupdate sb st i ip) ip :=
  (h.freeing hsb hz).blank hsb h hi hip

/-- The fields that `create`, `link` and `unlink` store do not concern the blocks. -/
theorem Inv.stamp (hsb : sb.Ok) (h : Inv sb s) (hk : s.Locked k) {ip : Inode}
    (haddrs : ip.addrs = (s.cache k).ip.addrs) (htype : ip.type = (s.cache k).ip.type)
    (hsize : ip.size = (s.cache k).ip.size) :
    Inv sb (s.put k (iupdate sb s.store (s.cache k).inum ip) ip) := by
  obtain ⟨hi,hip,ht⟩ := h.coherent.loaded k hk
  rw [hip] at haddrs htype hsize ht
  have hnblocks : ip.nblocks = (dinode sb s.store.disk (s.cache k).inum).nblocks := by
    rw [Inode.nblocks, Inode.nblocks, hsize]
  have hstart := writing_start h.sound.agree (h.sound.slotRef_filled hi ht)
  exact h.put hk ((hstart.iupdate hsb hi ht ip haddrs htype hnblocks).1.done h.sound hi)
    (by rw [htype]; exact ht)

theorem Inv.iput (hsb : sb.Ok) (h : Inv sb s) (hk : 0 < (s.cache k).ref) :
    Yields freeing (Inv sb) (s.iput sb k) := by
  rw [Sys.iput]
  split
  · next hfree =>
    obtain ⟨hi,hip,ht⟩ := h.coherent.loaded k ⟨hk,hfree.1⟩
    rw [hip] at ht
    obtain ⟨st,ip,hst,hd,hb,-⟩ := itrunc_spec hsb h.sound hi ht
    rw [hip, hst]
    have hblank : Blank { ip with type := 0 } := ⟨hb.addr,hb.size⟩
    have hd' := hd.trans (hd.sound.blank hsb hi (fun q => ?_) hblank)
    · refine Yields.ok (Inv.drop ⟨hd'.sound,h.coherent.replace ?_ ?_ (h.coherent.apart hk hd')⟩ ?_)
      · exact fun _ l hlk hl heq => hlk (h.coherent.one l k hl hk heq)
      · exact fun _ hv => by cases hv
      · simp [hk]
    · have hdin : dinode sb st.disk (s.cache k).inum = ip :=
        (hd.inode _ hi).trans (Function.update_self ..)
      unfold refs
      dsimp only
      rw [hdin, hb.slotRef, ite_self]
  · exact Yields.ok (h.drop hk)

theorem Inv.ialloc (hsb : sb.Ok) (h : Inv sb s) (type : UInt16) :
    Yields freeing (fun t => Inv sb t.1 ∧ 0 < (t.1.cache t.2).ref ∧
      (t.1.cache t.2).inum < sb.ninodes) (s.ialloc sb type) := by
  rw [Sys.ialloc]
  split
  · exact Yields.error (not_freeing (by decide))
  · next inum hf =>
    have hfree : (dinode sb s.store.disk inum).type = 0 := by simpa using List.find?_some hf
    have hi : inum < sb.ninodes := by
      have := List.mem_range'_1.mp (List.mem_of_find?_eq_some hf)
      omega
    have hblank : Blank (Sys.fresh type) := ⟨fun _ => rfl,rfl⟩
    have hd := h.sound.blank hsb hi (fun q => if_neg (fun hx => hx.2 hfree)) hblank
    have hinv : Inv sb { s with store := iupdate sb s.store inum (Sys.fresh type) } := by
      refine ⟨hd.sound,h.coherent.one,fun l hl => ?_⟩
      obtain ⟨h1,h2,h3⟩ := h.coherent.loaded l hl
      -- A loaded inode has a type, so it is not the one that was free.
      have hne : (s.cache l).inum ≠ inum := fun heq => h3 (by rw [h2, heq, hfree])
      exact ⟨h1,by rw [h2, hd.inode _ h1, Function.update_of_ne hne],h3⟩
    refine (hinv.iget inum).mono (fun t ht => ⟨ht.1,ht.2.2.1,?_⟩)
    rw [ht.2.2.2]
    exact hi

theorem Inv.makeInode (hsb : sb.Ok) (h : Inv sb s) (type major minor : UInt16) :
    Yields freeing (fun t => Inv sb t.1) (s.makeInode sb type major minor) := by
  refine (h.ialloc hsb type).bind (fun t ht => ?_)
  obtain ⟨hinv,href,hi⟩ := ht
  refine (hinv.ilock href hi).bind (fun u hu => ?_)
  exact Yields.ok (hu.1.stamp hsb hu.2.2.1 rfl rfl rfl)

section
variable {st : Store} {ip : Inode}

theorem readDirent_same (h : Filled (slotRef st.disk ip) ip.nblocks) {msg : String}
    (hmsg : msg ≠ "freeing free block") (off : ℕ) :
    Yields freeing (fun t => t.1 = st ∧ t.2.1 = ip) (readDirent sb msg st ip off) := by
  obtain ⟨r,hr⟩ := readi_same sb h off (n := direntSize) (by decide)
  rw [readDirent, hr]
  dsimp only [bind, Except.bind]
  cases r with
  | fail => exact Yields.error (not_freeing hmsg)
  | console => exact Yields.error (not_freeing hmsg)
  | done de =>
    dsimp only
    split
    · exact Yields.ok ⟨rfl,rfl⟩
    · exact Yields.error (not_freeing hmsg)

theorem dirlookup_same (h : Filled (slotRef st.disk ip) ip.nblocks) (name : List UInt8) :
    Yields freeing (fun t => t.1 = st ∧ t.2.1 = ip) (dirlookup sb st ip name) := by
  have hloop : ∀ fuel off, Yields freeing (fun t => t.1 = st ∧ t.2.1 = ip)
      (lookupLoop sb name fuel st ip off) := by
    intro fuel
    induction fuel with
    | zero => exact fun off => Yields.ok ⟨rfl,rfl⟩
    | succ fuel ih =>
      intro off
      rw [lookupLoop]
      split
      · refine (readDirent_same h (by decide) off).bind ?_
        rintro ⟨st',ip',de⟩ ⟨rfl,rfl⟩
        dsimp only
        split
        · exact ih _
        · split
          · exact Yields.ok ⟨rfl,rfl⟩
          · exact ih _
      · exact Yields.ok ⟨rfl,rfl⟩
  rw [dirlookup]
  split
  · exact hloop _ _
  · exact Yields.error (not_freeing (by decide))

theorem emptyLoop_same (h : Filled (slotRef st.disk ip) ip.nblocks) (fuel off : ℕ) :
    Yields freeing (fun t => t.1 = st ∧ t.2.1 = ip) (emptyLoop sb fuel st ip off) := by
  induction fuel generalizing off with
  | zero => exact Yields.ok ⟨rfl,rfl⟩
  | succ fuel ih =>
    rw [emptyLoop]
    split
    · refine (readDirent_same h (by decide) off).bind ?_
      rintro ⟨st',ip',de⟩ ⟨rfl,rfl⟩
      dsimp only
      split
      · exact Yields.ok ⟨rfl,rfl⟩
      · exact ih _
    · exact Yields.ok ⟨rfl,rfl⟩

end

theorem addDirent_spec {i : ℕ} {st : Store} (hsb : sb.Ok) (h : Sound sb st.disk)
    (hi : i < sb.ninodes) (ht : (dinode sb st.disk i).type ≠ 0) (name : List UInt8) (target : ℕ) :
    Yields freeing (fun t => Done sb i st t.1 t.2 ∧ t.2.type = (dinode sb st.disk i).type)
      (addDirent sb st i (dinode sb st.disk i) name target) := by
  rw [addDirent]
  refine (emptyLoop_same (h.slotRef_filled hi ht) _ 0).bind ?_
  rintro ⟨st',ip',off⟩ ⟨hst,hip⟩
  dsimp only at hst hip
  subst hst hip
  refine (writei_spec hsb h hi ht (dirent target name) off (by
    rw [dirent_length]
    decide)).bind (fun t ht => ?_)
  obtain ⟨st1,ip1,r⟩ := t
  cases r with
  | done n => exact Yields.ok ht
  | fail => exact Yields.error (not_freeing (by decide))
  | console => exact Yields.error (not_freeing (by decide))

theorem put_same (s : Sys) (k : Fin NINODE) : s.put k s.store (s.cache k).ip = s := by
  rw [Sys.put, Function.update_eq_self]

theorem Inv.dirlink (hsb : sb.Ok) (h : Inv sb s) (hk : s.Locked k) (name : List UInt8)
    (target : ℕ) : Yields freeing (fun t => Inv sb t.1) (s.dirlink sb k name target) := by
  obtain ⟨hi,hip,ht⟩ := h.coherent.loaded k hk
  rw [Sys.dirlink]
  refine (dirlookup_same (by
    rw [hip] at ht ⊢
    exact h.sound.slotRef_filled hi ht) name).bind ?_
  rintro ⟨st,ip,found⟩ ⟨rfl,rfl⟩
  dsimp only
  rw [put_same]
  cases found with
  | some x =>
    refine (h.iget x.1).bind (fun t hget => ?_)
    exact (hget.1.iput hsb hget.2.2.1).bind (fun u hu => Yields.ok hu)
  | none =>
    rw [hip] at ht ⊢
    refine (addDirent_spec hsb h.sound hi ht name target).bind (fun t hadd => ?_)
    exact Yields.ok (h.put hk hadd.1 (by rw [hadd.2]; exact ht))

theorem Inv.readi (h : Inv sb s) (hk : s.Locked k) (off : ℕ) {n : ℕ} (hn : n < 2^32) :
    s.run sb (.readi k off n) = .ok s := by
  obtain ⟨hi,hip,ht⟩ := h.coherent.loaded k hk
  have hf := h.sound.slotRef_filled hi (by rwa [← hip])
  rw [← hip] at hf
  obtain ⟨r,hr⟩ := readi_same sb hf off hn
  rw [Sys.run, hr]
  dsimp only [bind, Except.bind]
  rw [put_same]

theorem inv_run (hsb : sb.Ok) (h : Inv sb s) {op : Op} (hr : s.Ready sb op) :
    Yields freeing (Inv sb) (s.run sb op) := by
  cases op with
  | iget inum => exact (h.iget inum).bind (fun t ht => Yields.ok ht.1)
  | idup k =>
    have hk : 0 < (s.cache k).ref := hr
    refine Yields.ok ⟨h.sound,h.coherent.replace ?_ ?_ (fun _ _ _ => rfl)⟩
    · exact fun _ l hlk hl heq => hlk (h.coherent.one l k hl hk heq)
    · exact fun _ hv => h.coherent.loaded k ⟨hk,hv⟩
  | ilock k => exact (h.ilock hr.1 hr.2).mono (fun _ ht => ht.1)
  | makeInode type major minor =>
    exact (h.makeInode hsb type major minor).bind (fun t ht => Yields.ok ht)
  | relink k n => exact Yields.ok (h.stamp hsb hr rfl rfl rfl)
  | readi k off n =>
    rw [h.readi hr.1 off hr.2]
    exact Yields.ok h
  | writei k src off =>
    obtain ⟨hk,hlen⟩ := hr
    obtain ⟨hi,hip,ht⟩ := h.coherent.loaded k hk
    rw [hip] at ht
    rw [Sys.run, hip]
    refine (writei_spec hsb h.sound hi ht src off hlen).bind (fun t hw => ?_)
    exact Yields.ok (h.put hk hw.1 (by rw [hw.2]; exact ht))
  | dirlink k name target => exact (h.dirlink hsb hr name target).bind (fun t ht => Yields.ok ht)
  | itrunc k =>
    have hk : s.Locked k := hr
    obtain ⟨hi,hip,ht⟩ := h.coherent.loaded k hk
    rw [hip] at ht
    obtain ⟨st,ip,hst,hd,-,htype⟩ := itrunc_spec hsb h.sound hi ht
    rw [Sys.run, hip, hst]
    exact Yields.ok (h.put hk hd (by rw [htype]; exact ht))
  | iput k => exact h.iput hsb hr

theorem reach_inv {s₀ : Sys} (hsb : sb.Ok) (h₀ : Inv sb s₀) (h : Reach sb s₀ s) : Inv sb s := by
  induction h with
  | start => exact h₀
  | step _ hr hs ih => exact (inv_run hsb ih hr).2 _ hs

end Xv6.Fs
