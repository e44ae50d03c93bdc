import Xv6.Fs.Contents

/-!
# Giving the blocks of a file back

`itrunc` frees the blocks that the slots of an inode name, one `bfree` after the other,
while the words of the indirect block stay as they are. The references are followed as
a family of their own that loses one member with every block freed; each of them is
marked when its turn comes, so no `bfree` finds a clear bit.
-/

set_option autoImplicit false

namespace Xv6.Fs
open Xv6.Slots

variable {sb : Super} {s₀ s s' : Store} {i : ℕ} {ip : Inode} {R : ℕ × Pos → ℕ}

/-- The family without some of its members. -/
def zeroed (R : ℕ × Pos → ℕ) (xs : List (ℕ × Pos)) : ℕ × Pos → ℕ :=
  fun x => if x ∈ xs then 0 else R x

theorem zeroed_nil (R : ℕ × Pos → ℕ) : zeroed R [] = R := by
  funext y
  simp [zeroed]

theorem zeroed_cons (R : ℕ × Pos → ℕ) (x : ℕ × Pos) (xs : List (ℕ × Pos)) :
    zeroed (Function.update R x 0) xs = zeroed R (x::xs) := by
  funext y
  by_cases hx : y = x
  · simp [zeroed, hx]
  · simp [zeroed, hx]

theorem zeroed_other {α : Type} {f : α → Pos} {l : List α} {j : ℕ} (R : ℕ × Pos → ℕ) (hj : j ≠ i)
    {q : Pos} : zeroed R (l.map (fun a => (i,f a))) (j,q) = R (j,q) := by
  refine if_neg (fun hm => ?_)
  obtain ⟨a,-,ha⟩ := List.mem_map.mp hm
  exact hj (Prod.mk.inj ha).1.symm

/-- Only bits have changed since `s₀`, and `R` is what the bits stand for. -/
structure Freeing (sb : Super) (s₀ s : Store) (R : ℕ × Pos → ℕ) : Prop where
  owns : Owns ∅ sb.nmeta sb.size (marked sb s.disk) R
  data : ∀ c, sb.nmeta ≤ c → s.disk c = s₀.disk c
  inode : ∀ j < sb.ninodes, dinode sb s.disk j = dinode sb s₀.disk j

theorem Freeing.bfree (hsb : sb.Ok) (h : Freeing sb s₀ s R) {x : ℕ × Pos} (hx : R x ≠ 0) :
    ∃ s', bfree sb s (R x) = .ok s' ∧ Freeing sb s₀ s' (Function.update R x 0) := by
  obtain ⟨s',hs',hbits,hdata,hinode⟩ :=
    bfree_spec hsb (h.owns.range x hx).2 (h.owns.taken hx)
  refine ⟨s',hs',?_,fun c hc => by rw [hdata c hc, h.data c hc],fun j hj => by
    rw [hinode j hj, h.inode j hj]⟩
  exact (h.owns.clear hx).congr hsb.data (fun b _ => hbits b) (fun _ => rfl)

theorem Freeing.skip (h : Freeing sb s₀ s R) {x : ℕ × Pos} (hx : R x = 0) :
    Freeing sb s₀ s (Function.update R x 0) := by
  rw [← hx, Function.update_eq_self]
  exact h

theorem freeAddrs_spec (hsb : sb.Ok) (rs : List (Fin (NDIRECT+1))) (hn : rs.Nodup)
    (h : Freeing sb s₀ s R) (hR : ∀ r ∈ rs, R (i,.addr r) = ip.addr r) :
    ∃ s' ip', freeAddrs sb rs s ip = .ok (s', ip') ∧
      Freeing sb s₀ s' (zeroed R (rs.map (fun r => (i,.addr r)))) ∧
      (∀ r, ip'.addr r = if r ∈ rs then 0 else ip.addr r) ∧
      ip' = { ip with addrs := ip'.addrs } := by
  induction rs generalizing s ip R with
  | nil => exact ⟨s,ip,rfl,by rwa [List.map_nil, zeroed_nil],by simp,rfl⟩
  | cons r rs ih =>
    obtain ⟨hr,hn⟩ := List.nodup_cons.mp hn
    have hRr := hR r (by simp)
    have hnext : ∀ t ∈ rs, Function.update R (i,.addr r) 0 (i,.addr t) = ip.addr t := by
      intro t ht
      have hne : t ≠ r := fun htr => hr (htr ▸ ht)
      rw [Function.update_of_ne (by simpa using hne)]
      exact hR t (by simp [ht])
    rw [freeAddrs]
    split
    · next h0 =>
      obtain ⟨s',ip',hs',hf,haddr,hfields⟩ := ih hn (h.skip (by rw [hRr, h0])) hnext
      rw [zeroed_cons] at hf
      refine ⟨s',ip',hs',hf,fun t => ?_,hfields⟩
      rw [haddr]
      by_cases htr : t = r
      · simp [htr, h0]
      · simp [htr]
    · next h0 =>
      obtain ⟨s1,hs1,hf1⟩ := h.bfree hsb (x := (i,.addr r)) (by rw [hRr]; exact h0)
      rw [hRr] at hs1
      rw [hs1]
      have hset : ∀ t, (ip.setAddr r 0).addr t = if t = r then 0 else ip.addr t :=
        setAddr_addr (by decide) r
      obtain ⟨s',ip',hs',hf,haddr,hfields⟩ := @ih s1 (ip.setAddr r 0) _ hn hf1 (fun t ht => by
        have hne : t ≠ r := fun htr => hr (htr ▸ ht)
        rw [hnext t ht, hset, if_neg hne])
      rw [zeroed_cons] at hf
      refine ⟨s',ip',hs',hf,fun t => ?_,?_⟩
      · rw [haddr, hset]
        by_cases htr : t = r
        · simp [htr]
        · simp [htr]
      · rw [hfields]
        rfl

theorem freeWords_spec (hsb : sb.Ok) (a : Block) (es : List (Fin NINDIRECT)) (hn : es.Nodup)
    (h : Freeing sb s₀ s R) (hR : ∀ e ∈ es, R (i,.entry e) = word a e) :
    ∃ s', freeWords sb a (es.map Fin.val) s = .ok s' ∧
      Freeing sb s₀ s' (zeroed R (es.map (fun e => (i,.entry e)))) := by
  induction es generalizing s R with
  | nil => exact ⟨s,rfl,by rwa [List.map_nil, zeroed_nil]⟩
  | cons e es ih =>
    obtain ⟨he,hn⟩ := List.nodup_cons.mp hn
    have hRe := hR e (by simp)
    have hnext : ∀ t ∈ es, Function.update R (i,.entry e) 0 (i,.entry t) = word a t := by
      intro t ht
      have hne : t ≠ e := fun hte => he (hte ▸ ht)
      rw [Function.update_of_ne (by simpa using hne)]
      exact hR t (by simp [ht])
    rw [List.map_cons, freeWords]
    split
    · next h0 =>
      obtain ⟨s',hs',hf⟩ := ih hn (h.skip (by rw [hRe, h0])) hnext
      rw [zeroed_cons] at hf
      exact ⟨s',hs',hf⟩
    · next h0 =>
      obtain ⟨s1,hs1,hf1⟩ := h.bfree hsb (x := (i,.entry e)) (by rw [hRe]; exact h0)
      rw [hRe] at hs1
      rw [hs1]
      obtain ⟨s',hs',hf⟩ := ih hn hf1 hnext
      rw [zeroed_cons] at hf
      exact ⟨s',hs',hf⟩

/-- The references without those of one inode. -/
def without (sb : Super) (d : Disk) (i : ℕ) (x : ℕ × Pos) : ℕ :=
  if x.1 = i then 0 else refs sb d (dinode sb d) x

/-- An inode that names no block and has size zero. -/
structure Blank (ip : Inode) : Prop where
  addr : ∀ r, ip.addr r = 0
  size : ip.size = 0

theorem Blank.slotRef {ip : Inode} (h : Blank ip) (d : Disk) (q : Pos) : slotRef d ip q = 0 := by
  cases q with
  | addr r => exact h.addr r
  | entry e => exact if_pos (h.addr indirect)

theorem Blank.nblocks {ip : Inode} (h : Blank ip) : ip.nblocks = 0 := by
  rw [Inode.nblocks, h.size]
  rfl

theorem filled_zero : Filled (fun _ => 0) 0 :=
  ⟨fun n => by simp,by simp,by decide⟩

theorem Freeing.blank (hsb : sb.Ok) (h₀ : Sound sb s₀.disk) (hi : i < sb.ninodes)
    (h : Freeing sb s₀ s (without sb s₀.disk i)) (hip : Blank ip) :
    Done sb i s₀ (iupdate sb s i ip) ip := by
  obtain ⟨hdin,hmark⟩ := iupdate_views hsb hi s ip
  have hlt := hsb.iblock_lt hi
  have hmeta := sb.bmapstart_lt
  have hinode : ∀ j < sb.ninodes, dinode sb (iupdate sb s i ip).disk j =
      Function.update (dinode sb s₀.disk) i ip j := by
    intro j hj
    rw [hdin j]
    by_cases hji : j = i
    · rw [hji, Function.update_self, Function.update_self]
    · rw [Function.update_of_ne hji, Function.update_of_ne hji, h.inode j hj]
  have hrefs : ∀ x, refs sb (iupdate sb s i ip).disk (dinode sb (iupdate sb s i ip).disk) x =
      without sb s₀.disk i x := by
    rintro ⟨j,q⟩
    unfold refs without
    dsimp only
    by_cases hj : j < sb.ninodes
    · rw [hinode j hj]
      by_cases hji : j = i
      · rw [hji, Function.update_self, hip.slotRef, ite_self, if_pos rfl]
      · rw [Function.update_of_ne hji, if_neg hji]
        unfold refs
        dsimp only
        split
        · next hx =>
          refine slotRef_congr (fun hA => ?_) q
          have hge := (h₀.agree.range (j,.addr indirect)
            (by rw [refs_allocated _ hx.1 hx.2]; exact hA)).1
          rw [refs_allocated _ hx.1 hx.2] at hge
          change sb.nmeta ≤ (dinode sb s₀.disk j).addr indirect at hge
          exact (Function.update_of_ne (by omega) ..).trans (h.data _ hge)
        · rfl
    · have hr : refs sb s₀.disk (dinode sb s₀.disk) (j,q) = 0 := if_neg (fun hx => hj hx.1)
      rw [if_neg (fun hx => hj hx.1), hr, ite_self]
  refine ⟨⟨h.owns.congr hsb.data hmark hrefs,fun j hj htj => ?_⟩,hinode⟩
  rw [hinode j hj] at htj ⊢
  by_cases hji : j = i
  · subst hji
    rw [Function.update_self, hip.nblocks]
    exact filled_zero.congr (fun q => (hrefs (j,q)).trans (if_pos rfl))
  · rw [Function.update_of_ne hji] at htj ⊢
    exact (h₀.filled j hj htj).congr (fun q => (hrefs (j,q)).trans (if_neg hji))

theorem Sound.freeing (hsb : sb.Ok) (h : Sound sb s.disk)
    (hz : ∀ q, refs sb s.disk (dinode sb s.disk) (i,q) = 0) :
    Freeing sb s s (without sb s.disk i) := by
  refine ⟨h.agree.congr hsb.data (fun _ _ => rfl) (fun x => ?_),fun _ _ => rfl,fun _ _ => rfl⟩
  rw [without]
  split
  · next hx =>
    obtain ⟨j,q⟩ := x
    change j = i at hx
    rw [hx, hz q]
  · rfl

theorem directs_nodup : directs.Nodup :=
  (List.nodup_finRange _).map (Fin.castSucc_injective _)

theorem mem_directs (r : Fin (NDIRECT+1)) : r ∈ directs ↔ r ≠ indirect := by
  rw [directs, List.mem_map]
  constructor
  · rintro ⟨t,-,rfl⟩
    exact Fin.castSucc_ne_last t
  · intro h
    exact ⟨r.castPred h,List.mem_finRange _,Fin.castSucc_castPred r h⟩

theorem Freeing.congr {R' : ℕ × Pos → ℕ} (h : Freeing sb s₀ s R) (hR : ∀ x, R' x = R x) :
    Freeing sb s₀ s R' := by
  obtain rfl : R' = R := funext hR
  exact h

theorem freeIndirect_spec (hsb : sb.Ok) (hi : i < sb.ninodes)
    (ht : (dinode sb s₀.disk i).type ≠ 0) (hA : ip.addr indirect = (dinode sb s₀.disk i).addr indirect)
    (h : Freeing sb s₀ s (zeroed (refs sb s₀.disk (dinode sb s₀.disk))
      (directs.map (fun r => (i,.addr r))))) :
    ∃ s' ip', freeIndirect sb s ip = .ok (s', ip') ∧ Freeing sb s₀ s' (without sb s₀.disk i) ∧
      (∀ r, ip'.addr r = if r = indirect then 0 else ip.addr r) ∧
      ip' = { ip with addrs := ip'.addrs } := by
  have hown : ∀ q, refs sb s₀.disk (dinode sb s₀.disk) (i,q) =
      slotRef s₀.disk (dinode sb s₀.disk i) q := refs_allocated _ hi ht
  have hgone : ∀ r : Fin (NDIRECT+1), (i,Pos.addr r) ∈ directs.map (fun r => (i,Pos.addr r)) ↔
      r ≠ indirect := by
    intro r
    rw [← mem_directs, List.mem_map]
    simp
  have hentry : ∀ e, (i,Pos.entry e) ∉ directs.map (fun r => (i,Pos.addr r)) := by simp
  rw [freeIndirect]
  split
  · next h0 =>
    refine ⟨s,ip,rfl,h.congr (fun x => ?_),fun r => ?_,rfl⟩
    · obtain ⟨j,q⟩ := x
      by_cases hj : j = i
      · subst hj
        rw [without, if_pos rfl]
        symm
        cases q with
        | addr r =>
          by_cases hr : r = indirect
          · rw [zeroed, if_neg (by rw [hgone]; exact not_not.mpr hr), hown, hr]
            exact hA.symm.trans h0
          · exact if_pos ((hgone r).mpr hr)
        | entry e =>
          rw [zeroed, if_neg (hentry e), hown]
          exact if_pos (hA.symm.trans h0)
      · rw [without, if_neg hj, zeroed_other _ hj]
    · split
      · next hr => rw [hr, h0]
      · rfl
  · next h0 =>
    have hA0 : (dinode sb s₀.disk i).addr indirect ≠ 0 := by rwa [← hA]
    have hkept : zeroed (refs sb s₀.disk (dinode sb s₀.disk))
        (directs.map (fun r => (i,Pos.addr r))) (i,.addr indirect) = ip.addr indirect := by
      rw [zeroed, if_neg (by rw [hgone]; exact not_not.mpr rfl), hown, hA]
      rfl
    have hge : sb.nmeta ≤ ip.addr indirect := by
      have := (h.owns.range (i,.addr indirect) (by rw [hkept]; exact h0)).1
      rwa [hkept] at this
    obtain ⟨s1,hs1,hf1⟩ := freeWords_spec hsb (i := i) (s.disk (ip.addr indirect))
      (List.finRange NINDIRECT) (List.nodup_finRange _) h (fun e _ => by
        rw [zeroed, if_neg (hentry e), hown, slotRef, if_neg hA0, h.data _ hge, hA])
    have hnot : (i,Pos.addr indirect) ∉ (List.finRange NINDIRECT).map (fun e => (i,Pos.entry e)) := by
      simp
    have hkept1 : zeroed (zeroed (refs sb s₀.disk (dinode sb s₀.disk))
        (directs.map (fun r => (i,Pos.addr r)))) ((List.finRange NINDIRECT).map
          (fun e => (i,Pos.entry e))) (i,.addr indirect) = ip.addr indirect := by
      rw [zeroed, if_neg hnot, hkept]
    obtain ⟨s2,hs2,hf2⟩ := hf1.bfree hsb (x := (i,.addr indirect)) (by rw [hkept1]; exact h0)
    rw [hkept1] at hs2
    rw [List.map_coe_finRange_eq_range] at hs1
    rw [hs1]
    dsimp only [bind, Except.bind]
    rw [hs2]
    refine ⟨_,_,rfl,hf2.congr (fun x => ?_),setAddr_addr (by decide) _,rfl⟩
    obtain ⟨j,q⟩ := x
    by_cases hj : j = i
    · subst hj
      rw [without, if_pos rfl]
      symm
      cases q with
      | addr r =>
        by_cases hr : r = indirect
        · rw [hr, Function.update_self]
        · rw [Function.update_of_ne (by simpa using hr), zeroed, if_neg (by simp)]
          exact if_pos ((hgone r).mpr hr)
      | entry e =>
        rw [Function.update_of_ne (by simp)]
        exact if_pos (by simp)
    · rw [without, if_neg hj, Function.update_of_ne (by simp [hj]), zeroed_other _ hj,
        zeroed_other _ hj]

theorem itrunc_spec (hsb : sb.Ok) (h : Sound sb s.disk) (hi : i < sb.ninodes)
    (ht : (dinode sb s.disk i).type ≠ 0) :
    ∃ s' ip', itrunc sb s i (dinode sb s.disk i) = .ok (s', ip') ∧ Done sb i s s' ip' ∧ Blank ip' ∧
      ip'.type = (dinode sb s.disk i).type := by
  have hown : ∀ q, refs sb s.disk (dinode sb s.disk) (i,q) =
      slotRef s.disk (dinode sb s.disk i) q := refs_allocated _ hi ht
  have h0 : Freeing sb s s (refs sb s.disk (dinode sb s.disk)) :=
    ⟨h.agree,fun _ _ => rfl,fun _ _ => rfl⟩
  obtain ⟨s1,ip1,hs1,hf1,haddr1,hfields1⟩ :=
    freeAddrs_spec (i := i) hsb directs directs_nodup h0 (fun r _ => hown (.addr r))
  have hA : ip1.addr indirect = (dinode sb s.disk i).addr indirect := by
    rw [haddr1, if_neg]
    rw [mem_directs]
    exact not_not.mpr rfl
  obtain ⟨s2,ip2,hs2,hf2,haddr2,hfields2⟩ := freeIndirect_spec hsb hi ht hA hf1
  have hblank : Blank { ip2 with size := 0 } := by
    refine ⟨fun r => ?_,rfl⟩
    change ip2.addr r = 0
    rw [haddr2, haddr1]
    by_cases hr : r = indirect
    · rw [if_pos hr]
    · rw [if_neg hr, if_pos ((mem_directs r).mpr hr)]
  refine ⟨_,_,?_,hf2.blank hsb h hi hblank,hblank,?_⟩
  · rw [itrunc, hs1]
    dsimp only [bind, Except.bind]
    rw [hs2]
  · change ip2.type = _
    rw [hfields2, hfields1]

end Xv6.Fs
