import Xv6.Fs.Owned

/-!
# Finding and adding blocks of a file

`bmap` returns the block of an index, adding the indirect block and the block itself
where they are missing. A file that has its first `k` blocks has its first
`max k (n+1)` after `bmap` of an index `n ≤ k`, and a present block is found without
touching the disk.
-/

set_option autoImplicit false

namespace Xv6.Fs
open Xv6.Halting

variable {lost : Set ℕ} {sb : Super} {s s' : Store} {ino : ℕ → Inode} {i : ℕ} {ip : Inode}

/-- What the allocations of one call leave alone: everything except empty slots in `Q`,
the addresses in memory and the blocks that nobody named. -/
structure Grown (lost : Set ℕ) (sb : Super) (ino : ℕ → Inode) (i : ℕ) (Q : Pos → Prop) (s s' : Store)
    (ip : Inode) : Prop where
  agree : Agree lost sb s'.disk (Function.update ino i ip)
  slots : ∀ x, (x.1 = i → ¬ Q x.2) ∨ refs sb s.disk ino x ≠ 0 →
    refs sb s'.disk (Function.update ino i ip) x = refs sb s.disk ino x
  fields : ip = { ino i with addrs := ip.addrs }
  inode : ∀ j < sb.ninodes, dinode sb s'.disk j = dinode sb s.disk j
  kept : ∀ x, refs sb s.disk ino x ≠ 0 → (x = (i,.addr indirect) → ∀ j, ¬ Q (.entry j)) →
    s'.disk (refs sb s.disk ino x) = s.disk (refs sb s.disk ino x)

theorem Grown.refl (Q : Pos → Prop) (h : Agree lost sb s.disk ino) : Grown lost sb ino i Q s s (ino i) := by
  refine ⟨?_,fun x _ => ?_,rfl,fun _ _ => rfl,fun _ _ _ => rfl⟩ <;> rw [Function.update_eq_self]
  exact h

theorem Grown.type {Q : Pos → Prop} (h : Grown lost sb ino i Q s s' ip) : ip.type = (ino i).type := by
  rw [h.fields]

theorem Grown.weaken {Q Q' : Pos → Prop} (h : Grown lost sb ino i Q s s' ip) (hQ : ∀ q, Q q → Q' q) :
    Grown lost sb ino i Q' s s' ip :=
  ⟨h.agree,fun x hx => h.slots x (hx.imp_left (fun hn hxi hq => hn hxi (hQ _ hq))),h.fields,h.inode,
    fun x hx hq => h.kept x hx (fun hxi j hQj => hq hxi j (hQ _ hQj))⟩

theorem Grown.trans {Q Q' : Pos → Prop} {s'' : Store} {ip' : Inode}
    (h : Grown lost sb ino i Q s s' ip) (h' : Grown lost sb (Function.update ino i ip) i Q' s' s'' ip') :
    Grown lost sb ino i (fun q => Q q ∨ Q' q) s s'' ip' := by
  have hidem : Function.update (Function.update ino i ip) i ip' = Function.update ino i ip' :=
    Function.update_idem ..
  obtain ⟨agree',slots',fields',inode',kept'⟩ := h'
  rw [hidem] at agree' slots'
  have hslots : ∀ x, refs sb s.disk ino x ≠ 0 →
      refs sb s'.disk (Function.update ino i ip) x = refs sb s.disk ino x :=
    fun x hx => h.slots x (.inr hx)
  refine ⟨agree',fun x hx => ?_,?_,fun j hj => ?_,fun x hx hq => ?_⟩
  · have h1 : refs sb s'.disk (Function.update ino i ip) x = refs sb s.disk ino x :=
      h.slots x (hx.imp (fun hn hxi hQ => hn hxi (.inl hQ)) id)
    rw [← h1]
    refine slots' x (hx.imp (fun hn hxi hQ => hn hxi (.inr hQ)) (fun hn => by rwa [h1]))
  · rw [fields', Function.update_self, h.fields]
  · rw [inode' j hj, h.inode j hj]
  · rw [← h.kept x hx (fun hxi j hQ => hq hxi j (.inl hQ)), ← hslots x hx]
    exact kept' x (by rwa [hslots x hx]) (fun hxi j hQ => hq hxi j (.inr hQ))

theorem ensureAddr_spec (hsb : sb.Ok) (h : Agree lost sb s.disk ino) (hi : i < sb.ninodes)
    (ht : (ino i).type ≠ 0) (r : Fin (NDIRECT+1)) :
    Yields freeing (fun t => Grown lost sb ino i (· = .addr r) s t.1 t.2 ∧ t.2.addr r ≠ 0 ∧
      ((ino i).addr r ≠ 0 → t = (s,ino i)) ∧
      ((ino i).addr r = 0 → t.1.disk (t.2.addr r) = fun _ => 0)) (ensureAddr sb s (ino i) r) := by
  rw [ensureAddr]
  split
  · next h0 =>
    refine (balloc_spec hsb h.low).bind (fun t hal => Yields.ok ?_)
    have hrefs := fill_addr hsb h hal hi ht r h0
    have hself : ((ino i).setAddr r t.2).addr r = t.2 := by
      have := hal.lt
      have := hsb.int
      rw [setAddr_addr (by omega), if_pos rfl]
    refine ⟨⟨?_,fun x hx => ?_,rfl,hal.inode,fun x hx _ => hal.keeps h hx⟩,?_,fun hn => absurd h0 hn,
      fun _ => by rw [hself]; exact hal.zero⟩
    · exact h.filled hsb (by rw [refs_allocated _ hi ht]; exact h0) hal.clear hal.lt hal.bits hrefs
    · rw [hrefs, Function.update_of_ne]
      rintro rfl
      obtain hx | hx := hx
      · exact hx rfl rfl
      · exact hx (by rw [refs_allocated _ hi ht]; exact h0)
    · have hpos := h.pos
      have hge := (h.unnamed hal.clear hal.lt).1
      rw [hself]
      omega
  · next h0 => exact Yields.ok ⟨Grown.refl _ h,h0,fun _ => rfl,fun hz => absurd hz h0⟩

/-- The slots that `bmap` may fill for block `n`. -/
def onPath (n : Fin MAXFILE) (q : Pos) : Prop :=
  (q = .addr indirect ∧ NDIRECT ≤ n.val) ∨ q = place n

theorem place_direct {n : Fin MAXFILE} (h : n.val < NDIRECT) :
    place n = .addr ⟨n,Nat.lt_succ_of_lt h⟩ := dif_pos h

theorem place_entry {n : Fin MAXFILE} (h : ¬ n.val < NDIRECT) (h' : n.val-NDIRECT < NINDIRECT) :
    place n = .entry ⟨n-NDIRECT,h'⟩ := dif_neg h

theorem entry_spec (hsb : sb.Ok) (h : Agree lost sb s.disk ino) (hi : i < sb.ninodes)
    (ht : (ino i).type ≠ 0) (e : Fin NINDIRECT) (hA : (ino i).addr indirect ≠ 0) :
    Yields freeing (fun t => Grown lost sb ino i (· = .entry e) s t.1 t.2.1 ∧ t.2.2 ≠ 0 ∧
      slotRef t.1.disk t.2.1 (.entry e) = t.2.2 ∧
      (slotRef s.disk (ino i) (.entry e) = 0 → t.1.disk t.2.2 = fun _ => 0))
      (if word (s.disk ((ino i).addr indirect)) e = 0 then do
        let (s, b) ← balloc sb s
        .ok (s.logWrite ((ino i).addr indirect) (setWord (s.disk ((ino i).addr indirect)) e b),
          ino i, b)
      else .ok (s, ino i, word (s.disk ((ino i).addr indirect)) e)) := by
  have hslot : slotRef s.disk (ino i) (.entry e) = word (s.disk ((ino i).addr indirect)) e :=
    if_neg hA
  split
  · next h0 =>
    refine (balloc_spec hsb h.low).bind (fun t hal => Yields.ok ?_)
    obtain ⟨s1,b⟩ := t
    dsimp only at hal ⊢
    have hrefs := fill_entry hsb h hal hi ht e hA
    have hge : sb.nmeta ≤ (ino i).addr indirect := by
      have := (h.range (i,.addr indirect) (by rw [refs_allocated _ hi ht]; exact hA)).1
      rwa [refs_allocated _ hi ht] at this
    have hzero : refs sb s.disk ino (i,.entry e) = 0 := by
      rw [refs_allocated _ hi ht, hslot, h0]
    have hme : Function.update ino i (ino i) = ino := Function.update_eq_self ..
    have hnew : b ≠ (ino i).addr indirect := by
      have := (h.unnamed hal.clear hal.lt).2 (i,.addr indirect)
      rw [refs_allocated _ hi ht] at this
      exact Ne.symm this
    refine ⟨⟨?_,fun x hx => ?_,rfl,fun j hj => ?_,fun x hx hq => ?_⟩,?_,?_,fun _ => ?_⟩
    · rw [hme]
      refine h.filled hsb hzero hal.clear hal.lt (fun c hc => ?_) hrefs
      exact (marked_outside _ _ hc (.inr hge)).trans (hal.bits c hc)
    · rw [hme]
      refine (hrefs x).trans (Function.update_of_ne ?_ ..)
      rintro rfl
      obtain hx | hx := hx
      · exact hx rfl rfl
      · exact hx hzero
    · exact (dinode_outside hsb _ _ hj (by have := sb.bmapstart_lt; omega)).trans (hal.inode j hj)
    · refine (Function.update_of_ne ?_ ..).trans (hal.keeps h hx)
      intro heq
      refine hq ?_ e rfl
      refine h.once _ _ hx ?_
      rw [refs_allocated _ hi ht]
      exact heq
    · have := h.pos
      have := (h.unnamed hal.clear hal.lt).1
      omega
    · have := hrefs (i,.entry e)
      rwa [refs_allocated _ hi ht, Function.update_self] at this
    · exact (Function.update_of_ne hnew ..).trans hal.zero
  · next h0 => exact Yields.ok ⟨Grown.refl _ h,h0,hslot,fun hz => absurd (hslot.symm.trans hz) h0⟩

theorem bmap_spec (hsb : sb.Ok) (h : Agree lost sb s.disk ino) (hi : i < sb.ninodes)
    (ht : (ino i).type ≠ 0) (n : Fin MAXFILE) :
    Yields freeing (fun t => Grown lost sb ino i (onPath n) s t.1 t.2.1 ∧ t.2.2 ≠ 0 ∧
      slotRef t.1.disk t.2.1 (place n) = t.2.2 ∧ (NDIRECT ≤ n.val → t.2.1.addr indirect ≠ 0) ∧
      (slotRef s.disk (ino i) (place n) = 0 → t.1.disk t.2.2 = fun _ => 0))
      (bmap sb s (ino i) n) := by
  rw [bmap]
  split
  · next hn =>
    refine (ensureAddr_spec hsb h hi ht _).bind (fun t ht => Yields.ok ?_)
    obtain ⟨hg,hne,-,hzero⟩ := ht
    refine ⟨hg.weaken ?_,hne,by rw [place_direct hn]; rfl,fun hge => by omega,
      fun h0 => hzero (by rwa [place_direct hn] at h0)⟩
    rintro q rfl
    exact .inr (place_direct hn).symm
  · next hn =>
    have hlt : n.val-NDIRECT < NINDIRECT := by
      have := n.isLt
      unfold MAXFILE at this
      omega
    rw [if_pos hlt]
    refine (ensureAddr_spec hsb h hi ht _).bind (fun t hen => ?_)
    obtain ⟨hg,hA,-⟩ := hen
    have hent := entry_spec (i := i) hsb hg.agree hi (by rw [Function.update_self, hg.type]; exact ht)
      ⟨n-NDIRECT,hlt⟩ (by rw [Function.update_self]; exact hA)
    rw [Function.update_self] at hent
    refine hent.mono (fun u hu => ?_)
    obtain ⟨hg',hne,hslot,hzero⟩ := hu
    have ht' : (Function.update ino i t.2 i).type ≠ 0 := by rw [Function.update_self, hg.type]; exact ht
    have hkeep := hg'.slots (i,.addr indirect) (.inl (fun _ => by simp))
    rw [refs_allocated _ hi ht', refs_allocated _ hi (by rw [Function.update_self, hg'.type]; exact ht'),
      Function.update_self, Function.update_self] at hkeep
    have hentry := hg.slots (i,.entry ⟨n-NDIRECT,hlt⟩) (.inl (fun _ => by simp))
    rw [refs_allocated _ hi ht, refs_allocated _ hi ht', Function.update_self] at hentry
    refine ⟨(hg.trans hg').weaken ?_,hne,by rw [place_entry hn hlt]; exact hslot,fun _ => ?_,
      fun h0 => hzero (by rw [hentry]; rwa [place_entry hn hlt] at h0)⟩
    · rintro q (rfl | rfl)
      · exact .inl ⟨rfl,by omega⟩
      · exact .inr (place_entry hn hlt).symm
    · change slotRef u.1.disk u.2.1 (.addr indirect) ≠ 0
      rw [hkeep]
      exact hA

variable (sb) in
theorem bmap_present {n : Fin MAXFILE} (h : slotRef s.disk ip (place n) ≠ 0) :
    bmap sb s ip n = .ok (s, ip, slotRef s.disk ip (place n)) := by
  rw [bmap]
  split
  · next hn =>
    rw [place_direct hn, slotRef] at h
    rw [place_direct hn, ensureAddr, if_neg h]
    rfl
  · next hn =>
    have hlt : n.val-NDIRECT < NINDIRECT := by
      have := n.isLt
      unfold MAXFILE at this
      omega
    rw [place_entry hn hlt, slotRef] at h
    have hA : ip.addr indirect ≠ 0 := fun h0 => h (if_pos h0)
    rw [if_neg hA] at h
    rw [place_entry hn hlt, slotRef, if_pos hlt, ensureAddr, if_neg hA, if_neg hA]
    exact if_neg h

theorem Filled.congr {R R' : Pos → ℕ} {k : ℕ} (h : Filled R k) (hR : ∀ q, R' q = R q) :
    Filled R' k := by
  obtain rfl : R' = R := funext hR
  exact h

theorem place_inj {m n : Fin MAXFILE} (h : place m = place n) : m = n := by
  unfold place at h
  apply Fin.ext
  split at h <;> split at h <;> simp only [Pos.addr.injEq, Pos.entry.injEq, Fin.mk.injEq,
    reduceCtorEq] at h <;> omega

theorem place_ne_indirect (n : Fin MAXFILE) : place n ≠ .addr indirect := by
  unfold place
  split
  · next h =>
    intro heq
    have := congrArg Fin.val (Pos.addr.inj heq)
    change n.val = NDIRECT at this
    omega
  · exact Pos.noConfusion

theorem Filled.grow {R R' : Pos → ℕ} {k : ℕ} {n : Fin MAXFILE} (h : Filled R k) (hn : n.val ≤ k)
    (hR : ∀ q, ¬ onPath n q ∨ R q ≠ 0 → R' q = R q) (hb : R' (place n) ≠ 0)
    (hA : NDIRECT ≤ n.val → R' (.addr indirect) ≠ 0) : Filled R' (max k (n.val+1)) := by
  refine ⟨fun m => ?_,?_,?_⟩
  · by_cases hmn : m = n
    · subst hmn
      simp only [ne_eq, hb, not_false_eq_true, true_iff]
      omega
    · rw [hR (place m) (.inl ?_), h.blocks m]
      · have : m.val ≠ n.val := fun hv => hmn (Fin.ext hv)
        omega
      · rintro (⟨h1,-⟩ | h1)
        · exact place_ne_indirect m h1
        · exact hmn (place_inj h1)
  · by_cases hge : NDIRECT ≤ n.val
    · simp only [ne_eq, hA hge, not_false_eq_true, true_iff]
      omega
    · rw [hR _ (.inl ?_), h.more]
      · omega
      · rintro (⟨-,h1⟩ | h1)
        · exact hge h1
        · exact place_ne_indirect n h1.symm
  · have := n.isLt
    have := h.short
    omega

end Xv6.Fs
