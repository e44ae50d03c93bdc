import Xv6.Fs.InodeCoherence

/-!
# Freeing an unlinked inode

The calls of `iput` on an inode with no links. The test of `ref` and its decrement are
in two critical sections: if a second holder examines the inode while the first is
between the two, both see the other's reference and neither truncates. When every
holder examines with no other one there, the last to examine sees its own reference
only.
-/

set_option autoImplicit false

namespace Xv6.InodeCache
open Xv6.Fs Xv6.Refs

variable {n : ℕ}

/-- The runs of `iput` on entry `k`, each step by a process that may take it by `may`. -/
inductive Drops (k : Fin NINODE) (may : St n → Fin n → Prop) (s₀ : St n) : St n → Prop where
  | start : Drops k may s₀ s₀
  | step {s s' : St n} {p : Fin n} (h : Drops k may s₀ s) (hs : PutStep s p s')
      (hk : (s.pc p).dropping = some k ∨ (s'.pc p).dropping = some k) (hm : may s p) :
      Drops k may s₀ s'

/-- A process examines the inode only when no other one is between its own examination
and its decrement. -/
def Alone (k : Fin NINODE) (s : St n) (p : Fin n) : Prop :=
  s.pc p = .put .examine k → ∀ q, q ≠ p → s.pc q ≠ .put .release k ∧ s.pc q ≠ .put .drop k

instance (k : Fin NINODE) (s : St n) (p : Fin n) : Decidable (Alone k s p) :=
  inferInstanceAs (Decidable (_ → _))

/-- The inode as `itrunc` leaves it, and as `iput` frees it. -/
def truncated (ip : Inode) : Inode := { ip with size := 0, addrs := fun _ => 0 }

def freedInode (ip : Inode) : Inode := { truncated ip with type := 0 }

/-- The entry that a process in `iput` has yet to examine. -/
def Pc.unseen : Pc → Option (Fin NINODE)
  | .put .wait k => some k
  | .put .examine k => some k
  | _ => none

/-- The references whose `iput` has yet to examine the inode. -/
def unexamined (s : St n) (k : Fin NINODE) : ℕ :=
  s.refs.count k+number (fun p => (s.pc p).unseen) k

/-- The inode is as it was, and someone will truncate it: a reference is still to be
examined, or the one that was last is about to. -/
structure Before (s₀ s : St n) (k : Fin NINODE) : Prop where
  freed : s.freed = s₀.freed
  valid : (s.entry k).valid = true
  ip : (s.entry k).ip = s₀.dinode k
  will : 0 < unexamined s k ∨ ∃ p, s.pc p = .put .truncate k
  last : ∀ p, s.pc p = .put .truncate k → (s.entry k).ref = 1
  early : ∀ p, s.pc p ≠ .put .free k ∧ s.pc p ≠ .put .invalidate k

/-- The inode was truncated by the only reference left. -/
structure After (s₀ s : St n) (k : Fin NINODE) : Prop where
  freed : s.freed = ((s₀.entry k).dev,(s₀.entry k).inum)::s₀.freed
  seen : unexamined s k = 0
  solo : ∀ p q, (s.pc p).dropping = some k → (s.pc q).dropping = some k → p = q
  done : ∀ p, s.pc p ≠ .put .truncate k
  early : ∀ p, s.pc p = .put .free k → (s.entry k).ip = truncated (s₀.dinode k)
  late : (∀ p, s.pc p ≠ .put .free k) → s.dinode k = freedInode (s₀.dinode k)

variable {s₀ s s' : St n} {p : Fin n} {x : Pc} {k : Fin NINODE}

theorem unexamined_move (hpc : s'.pc = Function.update s.pc p x) (k : Fin NINODE) :
    unexamined s' k+s.refs.count k+(if (s.pc p).unseen = some k then 1 else 0) =
      unexamined s k+s'.refs.count k+(if x.unseen = some k then 1 else 0) := by
  have hu : (fun q => (s'.pc q).unseen) = Function.update (fun q => (s.pc q).unseen) p x.unseen := by
    rw [hpc]
    exact Function.comp_update Pc.unseen s.pc p x
  have hn := number_update (fun q => (s.pc q).unseen) p x.unseen k
  unfold unexamined
  rw [hu]
  omega

theorem unexamined_pos (hp : (s.pc p).unseen = some k) : 0 < unexamined s k := by
  have hn : 0 < number (fun q => (s.pc q).unseen) k := number_pos.mpr ⟨p,hp⟩
  unfold unexamined
  omega

theorem Inv.two (hi : Inv s) {q : Fin n} (hpq : p ≠ q) (hp : (s.pc p).dropping = some k)
    (hq : (s.pc q).dropping = some k) : 2 ≤ (s.entry k).ref := by
  have hn : 2 ≤ number (fun r => (s.pc r).dropping) k := number_two hpq hp hq
  have hc := hi.count k
  omega

/-- A move of `p` from the piece `ph` to the piece `ph'` of its `iput`, neither of which
is a truncation, before the inode is truncated. -/
theorem Before.move (hb : Before s₀ s k) (hpc : s'.pc = Function.update s.pc p x)
    (hp : s.pc p ≠ .put .truncate k) (hx : ∀ ph, x = .put ph k → ph = .wait ∨ ph = .examine ∨
      ph = .release ∨ ph = .drop) (hfreed : s'.freed = s.freed)
    (hentry : (s'.entry k).valid = (s.entry k).valid ∧ (s'.entry k).ip = (s.entry k).ip)
    (hwill : 0 < unexamined s k → s.refs.count k+(if (s.pc p).unseen = some k then 1 else 0) <
      unexamined s k+s'.refs.count k+(if x.unseen = some k then 1 else 0))
    (hlast : ∀ q, q ≠ p → s.pc q = .put .truncate k → (s'.entry k).ref = (s.entry k).ref) :
    Before s₀ s' k := by
  have hself : s'.pc p = x := by rw [hpc, Function.update_self]
  have hother : ∀ q, q ≠ p → s'.pc q = s.pc q := fun q hq => by rw [hpc, Function.update_of_ne hq]
  refine ⟨hfreed.trans hb.freed,hentry.1.trans hb.valid,hentry.2.trans hb.ip,?_,fun q hq => ?_,
    fun q => ?_⟩
  · rcases hb.will with hpos | ⟨q,hq⟩
    · have hm := unexamined_move hpc k
      have hlt := hwill hpos
      exact Or.inl (by omega)
    · have hqp : q ≠ p := by
        rintro rfl
        exact hp hq
      exact Or.inr ⟨q,by rwa [hother q hqp]⟩
  · have hqp : q ≠ p := by
      rintro rfl
      rw [hself] at hq
      simpa using hx _ hq
    rw [hother q hqp] at hq
    rw [hlast q hqp hq]
    exact hb.last q hq
  · by_cases hqp : q = p
    · subst hqp
      rw [hself]
      exact ⟨fun hq => by simpa using hx _ hq,fun hq => by simpa using hx _ hq⟩
    · rw [hother q hqp]
      exact hb.early q

/-- A holder that examines alone and keeps the inode has left another reference that is
still to be examined. -/
theorem Before.keep (hb : Before s₀ s k) (hi : Inv s) (hn : (s₀.dinode k).nlink = 0)
    (hp : s.pc p = .put .examine k) (ha : Alone k s p)
    (h : ¬ ((s.entry k).valid = true ∧ (s.entry k).ip.nlink = 0 ∧ (s.entry k).ref = 1)) :
    1 < unexamined s k := by
  have hsame : ∀ q, (s.pc q).dropping = some k → (s.pc q).unseen = some k := by
    intro q hq
    by_cases hqp : q = p
    · subst hqp
      rw [hp]
      rfl
    · cases hs : s.pc q with
      | put ph l =>
        rw [hs] at hq
        obtain rfl : l = k := by simpa [Pc.dropping] using hq
        cases ph with
        | wait => rfl
        | examine => rfl
        | truncate =>
          have h1 := hi.inside q l (by rw [hs]; rfl)
          have h2 := hi.inside p l (by rw [hp]; rfl)
          exact absurd (by simpa using h1.symm.trans h2) hqp
        | free => exact absurd hs (hb.early q).1
        | invalidate => exact absurd hs (hb.early q).2
        | release => exact absurd hs (ha hp q hqp).1
        | drop => exact absurd hs (ha hp q hqp).2
      | _ =>
        rw [hs] at hq
        cases hq
  have hle : number (fun q => (s.pc q).dropping) k ≤ number (fun q => (s.pc q).unseen) k :=
    number_mono hsame
  have hc := hi.count k
  have hpos : 0 < (s.entry k).ref := hi.ref_pos (by rw [hp]; rfl)
  have hne : (s.entry k).ref ≠ 1 := by
    intro hr
    exact h ⟨hb.valid,by rw [hb.ip, hn],hr⟩
  unfold unexamined
  omega

theorem Pc.unseen_dropping (h : x.unseen = some k) : x.dropping = some k := by
  cases x with
  | put ph l =>
    cases ph with
    | wait => exact h
    | examine => exact h
    | _ => cases h
  | _ => cases h

theorem Inv.single (hi : Inv s) (hr : (s.entry k).ref = 1) (hp : (s.pc p).dropping = some k) :
    s.refs.count k = 0 ∧ ∀ q, (s.pc q).dropping = some k → q = p := by
  have hn : 0 < number (fun q => (s.pc q).dropping) k := number_pos.mpr ⟨p,hp⟩
  have hc := hi.count k
  refine ⟨by omega,fun q hq => ?_⟩
  by_contra hqp
  have h2 := hi.two hqp hq hp
  omega

theorem Before.truncate (hb : Before s₀ s k) (hi : Inv s)
    (hkey : (s.entry k).dev = (s₀.entry k).dev ∧ (s.entry k).inum = (s₀.entry k).inum)
    (hp : s.pc p = .put .truncate k) (hpc : s'.pc = Function.update s.pc p (.put .free k))
    (hrefs : s'.refs = s.refs) (hfreed : s'.freed = ((s.entry k).dev,(s.entry k).inum)::s.freed)
    (hip : (s'.entry k).ip = truncated (s.entry k).ip) : After s₀ s' k := by
  obtain ⟨hout,honly⟩ := hi.single (hb.last p hp) (p := p) (by rw [hp]; rfl)
  have hself : s'.pc p = .put .free k := by rw [hpc, Function.update_self]
  have hall : ∀ q, (s'.pc q).dropping = some k → q = p := by
    intro q hq
    by_contra hqp
    rw [hpc, Function.update_of_ne hqp] at hq
    exact hqp (honly q hq)
  refine ⟨?_,?_,fun a b ha hb => (hall a ha).trans (hall b hb).symm,fun q hq => ?_,fun _ _ => ?_,
    fun hno => absurd hself (hno p)⟩
  · rw [hfreed, hb.freed, hkey.1, hkey.2]
  · by_contra hne
    unfold unexamined at hne
    rw [hrefs, hout, Nat.zero_add] at hne
    obtain ⟨q,hq⟩ := number_pos.mp (Nat.pos_of_ne_zero hne)
    obtain rfl := hall q (Pc.unseen_dropping hq)
    rw [hself] at hq
    cases hq
  · obtain rfl := hall q (by rw [hq]; rfl)
    rw [hself] at hq
    cases hq
  · rw [hip, hb.ip]

theorem Before.step (hb : Before s₀ s k) (hi : Inv s)
    (hkey : (s.entry k).dev = (s₀.entry k).dev ∧ (s.entry k).inum = (s₀.entry k).inum)
    (hn : (s₀.dinode k).nlink = 0) (hs : PutStep s p s')
    (hk : (s.pc p).dropping = some k ∨ (s'.pc p).dropping = some k) (ha : Alone k s p) :
    Before s₀ s' k ∨ After s₀ s' k := by
  cases hs with
  | @call l hp hl hu =>
    obtain rfl : l = k := by simpa [hp, St.goto, Pc.dropping] using hk
    refine Or.inl (hb.move (x := .put .wait l) rfl (by simp [hp]) (by simp) rfl ⟨rfl,rfl⟩
      (fun hpos => ?_) (fun _ _ _ => rfl))
    have hc := List.count_pos_iff.mpr hl
    simp [hp, Pc.unseen, List.count_erase_self]
    omega
  | @acquire l hp hl =>
    obtain rfl : l = k := by simpa [hp, St.goto, Pc.dropping] using hk
    refine Or.inl (hb.move (x := .put .examine l) rfl (by simp [hp]) (by simp) rfl ?_
      (fun hpos => ?_) (fun _ _ _ => ?_))
    · simp [St.goto, St.edit]
    · simp [hp, Pc.unseen, St.goto, St.edit]
      omega
    · simp [St.goto, St.edit]
  | @last l hp hv hn hr =>
    obtain rfl : l = k := by simpa [hp, St.goto, Pc.dropping] using hk
    refine Or.inl ⟨hb.freed,hb.valid,hb.ip,Or.inr ⟨p,by simp [St.goto]⟩,fun _ _ => hr,fun q => ?_⟩
    by_cases hqp : q = p
    · subst hqp
      simp [St.goto]
    · simpa [St.goto, hqp] using hb.early q
  | @keep l hp h =>
    obtain rfl : l = k := by simpa [hp, St.goto, Pc.dropping] using hk
    have hlt := hb.keep hi hn hp ha h
    refine Or.inl (hb.move (x := .put .release l) rfl (by simp [hp]) (by simp) rfl ⟨rfl,rfl⟩
      (fun hpos => ?_) (fun _ _ _ => rfl))
    simp [hp, Pc.unseen, St.goto]
    omega
  | @truncate l ip hp hip =>
    obtain rfl : l = k := by simpa [hp, St.goto, Pc.dropping] using hk
    refine Or.inr (hb.truncate hi hkey hp rfl rfl rfl ?_)
    simp [St.goto, St.edit, hip, truncated]
  | @free l ip hp hip =>
    obtain rfl : l = k := by simpa [hp, St.goto, Pc.dropping] using hk
    exact absurd hp (hb.early p).1
  | @invalidate l hp =>
    obtain rfl : l = k := by simpa [hp, St.goto, Pc.dropping] using hk
    exact absurd hp (hb.early p).2
  | @release l hp =>
    obtain rfl : l = k := by simpa [hp, St.goto, Pc.dropping] using hk
    refine Or.inl (hb.move (x := .put .drop l) rfl (by simp [hp]) (by simp) rfl ?_
      (fun hpos => ?_) (fun _ _ _ => ?_))
    · simp [St.goto, St.edit]
    · simp [hp, Pc.unseen, St.goto, St.edit]
      omega
    · simp [St.goto, St.edit]
  | @drop l hp =>
    obtain rfl : l = k := by simpa [hp, St.goto, Pc.dropping] using hk
    refine Or.inl (hb.move (x := .run) rfl (by simp [hp]) (by simp) rfl ?_
      (fun hpos => ?_) (fun q hqp hq => ?_))
    · simp [St.goto, St.edit]
    · simp [hp, Pc.unseen, St.goto, St.edit]
      omega
    · have h1 := hb.last q hq
      have h2 := hi.two (k := l) hqp (by rw [hq]; rfl) (by rw [hp]; rfl)
      omega

theorem After.move (ha : After s₀ s k) (hp : (s.pc p).dropping = some k)
    (hpc : s'.pc = Function.update s.pc p x) (hx : ∀ ph, x = .put ph k → ph = .invalidate ∨
      ph = .release ∨ ph = .drop) (hxk : ∀ l, x.dropping = some l → l = k)
    (hrefs : s'.refs = s.refs) (hfreed : s'.freed = s.freed)
    (hdisk : s'.dinode k = freedInode (s₀.dinode k)) : After s₀ s' k := by
  have hself : s'.pc p = x := by rw [hpc, Function.update_self]
  have hall : ∀ q, (s'.pc q).dropping = some k → q = p := by
    intro q hq
    by_contra hqp
    rw [hpc, Function.update_of_ne hqp] at hq
    exact hqp (ha.solo q p hq hp)
  have hnot : ∀ q ph, s'.pc q = .put ph k → ph = .invalidate ∨ ph = .release ∨ ph = .drop := by
    intro q ph hq
    obtain rfl := hall q (by rw [hq]; rfl)
    exact hx ph (hself.symm.trans hq)
  refine ⟨hfreed.trans ha.freed,?_,fun a b h1 h2 => (hall a h1).trans (hall b h2).symm,
    fun q hq => by simpa using hnot q _ hq,fun q hq => by simpa using hnot q _ hq,fun _ => hdisk⟩
  have hm := unexamined_move hpc k
  have hseen := ha.seen
  have hu : x.unseen ≠ some k := by
    intro hu
    cases x with
    | put ph l =>
      obtain rfl := hxk l rfl
      rcases hx ph rfl with rfl | rfl | rfl <;> cases hu
    | _ => cases hu
  rw [hrefs, if_neg hu] at hm
  omega

theorem After.step (ha : After s₀ s k) (hs : PutStep s p s')
    (hk : (s.pc p).dropping = some k ∨ (s'.pc p).dropping = some k) : After s₀ s' k := by
  have hseen : (s.pc p).unseen ≠ some k := by
    intro hu
    have hpos := unexamined_pos hu
    have h0 := ha.seen
    omega
  -- past the point where it writes the disk, the process finds it freed
  have hlate : ∀ {ph : PutPhase}, s.pc p = .put ph k → ph ≠ .free →
      s.dinode k = freedInode (s₀.dinode k) := by
    intro ph hp hne
    refine ha.late fun q hq => ?_
    obtain rfl := ha.solo q p (by rw [hq]; rfl) (by rw [hp]; rfl)
    rw [hp] at hq
    cases hq
    exact hne rfl
  cases hs with
  | @call l hp hl hu =>
    obtain rfl : l = k := by simpa [hp, St.goto, Pc.dropping] using hk
    have hc := List.count_pos_iff.mpr hl
    have h0 := ha.seen
    unfold unexamined at h0
    omega
  | @acquire l hp hl =>
    obtain rfl : l = k := by simpa [hp, St.goto, Pc.dropping] using hk
    exact absurd (by rw [hp]; rfl) hseen
  | @last l hp hv hn hr =>
    obtain rfl : l = k := by simpa [hp, St.goto, Pc.dropping] using hk
    exact absurd (by rw [hp]; rfl) hseen
  | @keep l hp h =>
    obtain rfl : l = k := by simpa [hp, St.goto, Pc.dropping] using hk
    exact absurd (by rw [hp]; rfl) hseen
  | @truncate l ip hp hip =>
    obtain rfl : l = k := by simpa [hp, St.goto, Pc.dropping] using hk
    exact absurd hp (ha.done p)
  | @free l ip hp hip =>
    obtain rfl : l = k := by simpa [hp, St.goto, Pc.dropping] using hk
    refine ha.move (x := .put .invalidate l) (by rw [hp]; rfl) rfl (by simp) (by simp [Pc.dropping]) rfl
      rfl ?_
    simp [St.dinode, St.goto, St.edit, write_disk, hip, ha.early p hp, freedInode]
  | @invalidate l hp =>
    obtain rfl : l = k := by simpa [hp, St.goto, Pc.dropping] using hk
    refine ha.move (x := .put .release l) (by rw [hp]; rfl) rfl (by simp) (by simp [Pc.dropping]) rfl
      rfl ?_
    simpa [St.dinode, St.goto, St.edit] using hlate hp (by simp)
  | @release l hp =>
    obtain rfl : l = k := by simpa [hp, St.goto, Pc.dropping] using hk
    refine ha.move (x := .put .drop l) (by rw [hp]; rfl) rfl (by simp) (by simp [Pc.dropping]) rfl
      rfl ?_
    simpa [St.dinode, St.goto, St.edit] using hlate hp (by simp)
  | @drop l hp =>
    obtain rfl : l = k := by simpa [hp, St.goto, Pc.dropping] using hk
    refine ha.move (x := .run) (by rw [hp]; rfl) rfl (by simp) (by simp [Pc.dropping]) rfl rfl ?_
    simpa [St.dinode, St.goto, St.edit] using hlate hp (by simp)

structure Stage (s₀ s : St n) (k : Fin NINODE) : Prop where
  inv : Inv s
  key : (s.entry k).dev = (s₀.entry k).dev ∧ (s.entry k).inum = (s₀.entry k).inum
  stage : Before s₀ s k ∨ After s₀ s k

theorem PutStep.key (hs : PutStep s p s') (k : Fin NINODE) :
    (s'.entry k).dev = (s.entry k).dev ∧ (s'.entry k).inum = (s.entry k).inum := by
  have hedit : ∀ (l : Fin NINODE) (e : CEntry n), e.dev = (s.entry l).dev → e.inum = (s.entry l).inum →
      (Function.update s.entry l e k).dev = (s.entry k).dev ∧
        (Function.update s.entry l e k).inum = (s.entry k).inum := by
    intro l e h1 h2
    by_cases hk : k = l
    · subst hk
      rw [Function.update_self]
      exact ⟨h1,h2⟩
    · rw [Function.update_of_ne hk]
      exact ⟨rfl,rfl⟩
  cases hs with
  | call hp hk hu => exact ⟨rfl,rfl⟩
  | last hp hv hn hr => exact ⟨rfl,rfl⟩
  | keep hp h => exact ⟨rfl,rfl⟩
  | _ => exact hedit _ _ rfl rfl

theorem Stage.step (h : Stage s₀ s k) (hn : (s₀.dinode k).nlink = 0) (hs : PutStep s p s')
    (hk : (s.pc p).dropping = some k ∨ (s'.pc p).dropping = some k) (ha : Alone k s p) :
    Stage s₀ s' k := by
  refine ⟨h.inv.put hs,?_,?_⟩
  · obtain ⟨h1,h2⟩ := hs.key k
    exact ⟨h1.trans h.key.1,h2.trans h.key.2⟩
  · rcases h.stage with hb | hd
    · exact hb.step h.inv h.key hn hs hk ha
    · exact Or.inr (hd.step hs hk)

theorem Drops.stage (h : Drops k (Alone k) s₀ s) (h₀ : Stage s₀ s₀ k)
    (hn : (s₀.dinode k).nlink = 0) : Stage s₀ s k := by
  induction h with
  | start => exact h₀
  | step _ hs hk hm ih => exact ih.step hn hs hk hm

theorem Before.held (hb : Before s₀ s k) (hi : Inv s) : 0 < (s.entry k).ref := by
  rcases hb.will with hpos | ⟨p,hp⟩
  · have hle : number (fun q => (s.pc q).unseen) k ≤ number (fun q => (s.pc q).dropping) k :=
      number_mono fun q hq => Pc.unseen_dropping hq
    have hc := hi.count k
    unfold unexamined at hpos
    omega
  · exact hi.ref_pos (by rw [hp]; rfl)

theorem After.empty (ha : After s₀ s k) (hi : Inv s) (hr : (s.entry k).ref = 0) :
    s.dinode k = freedInode (s₀.dinode k) := by
  refine ha.late fun q hq => ?_
  have hpos : 0 < (s.entry k).ref := hi.ref_pos (p := q) (by rw [hq]; rfl)
  omega

/-- From any state of the cache in which a loaded, unlocked entry with no links has
references and nobody is inside a function: in every run of `iput` calls on it in which
each examination finds no other holder between its own examination and its decrement,
the inode is freed on the disk when `ref` reaches 0, it is truncated only by a process
that has the only reference left, and at most once. -/
theorem unlinked_inode_freed {ninodes : ℕ} {s₁ : St n} (h₁ : Start s₁) (h₀ : Reach ninodes s₁ s₀)
    (hpc : ∀ p, s₀.pc p = .run) (hk : k ∈ s₀.refs) (hv : (s₀.entry k).valid = true)
    (hl : (s₀.entry k).lock = none) (hn : (s₀.entry k).ip.nlink = 0) (h : Drops k (Alone k) s₀ s) :
    ((s.entry k).ref = 0 →
      s.disk (s₀.entry k).dev (s₀.entry k).inum = freedInode (s₀.entry k).ip ∧
      s.freed = ((s₀.entry k).dev,(s₀.entry k).inum)::s₀.freed) ∧
    (∀ p, s.pc p = .put .truncate k →
      s.refs.count k = 0 ∧ ∀ q, (s.pc q).dropping = some k → q = p) ∧
    (s.freed = s₀.freed ∨ s.freed = ((s₀.entry k).dev,(s₀.entry k).inum)::s₀.freed) := by
  have hi := h₀.inv h₁
  have hip : (s₀.entry k).ip = s₀.dinode k :=
    (hi.free_settled hl (hi.out_pos hk) hv).2.2 (hi.free_clean hl)
  have hb : Before s₀ s₀ k := by
    refine ⟨rfl,hv,hip,Or.inl ?_,fun p hp => ?_,fun p => ?_⟩
    · have hpos := List.count_pos_iff.mpr hk
      unfold unexamined
      omega
    · rw [hpc] at hp
      cases hp
    · rw [hpc]
      simp
  have hs := h.stage ⟨hi,⟨rfl,rfl⟩,Or.inl hb⟩ (by rwa [← hip])
  rcases hs.stage with hb | ha
  · refine ⟨fun hr => ?_,fun p hp => ?_,Or.inl hb.freed⟩
    · have hpos := hb.held hs.inv
      omega
    · exact hs.inv.single (hb.last p hp) (by rw [hp]; rfl)
  · refine ⟨fun hr => ⟨?_,ha.freed⟩,fun p hp => absurd hp (ha.done p),Or.inr ha.freed⟩
    rw [← hs.key.1, ← hs.key.2, hip]
    exact ha.empty hs.inv hr

/-- An empty cache over a disk on which every inode is an empty file without links. -/
def noLink : St 2 where
  disk _ _ := ⟨2,0,0,0,0,fun _ => 0⟩
  entry _ := ⟨0,0,0,false,⟨0,0,0,0,0,fun _ => 0⟩,none,false⟩
  refs := []
  pc _ := .run
  freed := []

theorem noLink_start : Start noLink :=
  ⟨fun _ => rfl,fun _ => rfl,fun _ => rfl,rfl,fun _ => rfl⟩

theorem unused (hlock : (s.entry k).lock = none) (hpc : ∀ q, s.pc q ≠ .lock k ∧ s.pc q ≠ .load k)
    (q : Fin n) (hu : s.Uses q k) : q ≠ p ∧ k ∈ s.refs.erase k := by
  rcases hu with hu | hu | ⟨hu,-⟩
  · exact absurd hu (hpc q).1
  · exact absurd hu (hpc q).2
  · rw [hlock] at hu
    cases hu

def opener : Fin 2 := ⟨0,Nat.succ_pos 1⟩

/-- A process has opened inode 7, read it and unlocked it. -/
def opened : St 2 :=
  let s := noLink.goto opener (.get 1 7)
  let s := { (s.edit slot0 { s.entry slot0 with
    dev := 1, inum := 7, ref := 1, valid := false }).goto opener .run with refs := slot0::s.refs }
  let s := s.goto opener (.lock slot0)
  let s := (s.edit slot0 { s.entry slot0 with lock := some opener }).goto opener (.load slot0)
  let s := (s.edit slot0 { s.entry slot0 with ip := s.dinode slot0, valid := true }).goto opener .run
  s.edit slot0 { s.entry slot0 with lock := none }

theorem opened_reach : Reach 200 noLink opened := by
  have hr : Reach 200 noLink noLink := Reach.start
  replace hr := hr.step (show Step 200 noLink opener (noLink.goto opener (.get 1 7)) from .iget rfl)
  replace hr := hr.step (p := opener) (.getEmpty (k := slot0) rfl (by decide) (by decide))
  replace hr := hr.step (p := opener) (.ilock (k := slot0) rfl (by decide) (by decide))
  replace hr := hr.step (p := opener) (.lockAcquire rfl rfl)
  replace hr := hr.step (p := opener) (.load rfl rfl (by decide))
  exact hr.step (p := opener) (.iunlock (k := slot0) rfl rfl rfl (by decide))

/-- The reference was copied by `idup`. -/
def shared : St 2 :=
  { opened.edit slot0 { opened.entry slot0 with ref := (opened.entry slot0).ref+1 } with
    refs := slot0::opened.refs }

theorem shared_reach : Reach 200 noLink shared :=
  opened_reach.step (p := 0) (.idup rfl (by decide))

theorem unlinked_inode_freed_two : ∃ s : St 2, Drops slot0 (Alone slot0) shared s ∧
    (s.entry slot0).ref = 0 ∧ s.disk 1 7 = freedInode (shared.entry slot0).ip := by
  have hd : Drops slot0 (Alone slot0) shared shared := Drops.start
  -- process 0 goes all the way through its `iput` before process 1 examines
  replace hd := hd.step (p := 0) (.call (k := slot0) rfl (by decide) (unused rfl (by decide)))
    (Or.inr rfl) (by decide)
  replace hd := hd.step (p := 0) (.acquire rfl rfl) (Or.inr rfl) (by decide)
  replace hd := hd.step (p := 0) (.keep rfl (by decide)) (Or.inr rfl) (by decide)
  replace hd := hd.step (p := 0) (.release rfl) (Or.inr rfl) (by decide)
  replace hd := hd.step (p := 0) (.drop rfl) (Or.inl rfl) (by decide)
  replace hd := hd.step (p := 1) (.call (k := slot0) rfl (by decide) (unused rfl (by decide)))
    (Or.inr rfl) (by decide)
  replace hd := hd.step (p := 1) (.acquire rfl rfl) (Or.inr rfl) (by decide)
  replace hd := hd.step (p := 1) (.last rfl rfl rfl rfl) (Or.inr rfl) (by decide)
  replace hd := hd.step (p := 1) (.truncate rfl rfl) (Or.inr rfl) (by decide)
  replace hd := hd.step (p := 1) (.free rfl rfl) (Or.inr rfl) (by decide)
  replace hd := hd.step (p := 1) (.invalidate rfl) (Or.inr rfl) (by decide)
  replace hd := hd.step (p := 1) (.release rfl) (Or.inr rfl) (by decide)
  replace hd := hd.step (p := 1) (.drop rfl) (Or.inl rfl) (by decide)
  exact ⟨_,hd,rfl,((unlinked_inode_freed noLink_start shared_reach (by decide) (by decide) rfl rfl rfl
    hd).1 rfl).1⟩

/-- Two holders: the second examines the inode between the examination and the decrement
of the first. Both see two references, and the inode is never freed. -/
theorem unlinked_inode_leaks : Reach 200 noLink shared ∧ (∀ p, shared.pc p = .run) ∧
    (shared.entry slot0).ip.nlink = 0 ∧ ∃ s : St 2, Drops slot0 (fun _ _ => True) shared s ∧
      (s.entry slot0).ref = 0 ∧ (s.disk 1 7).type ≠ 0 ∧ s.freed = shared.freed := by
  refine ⟨shared_reach,by decide,rfl,?_⟩
  have hd : Drops slot0 (fun _ _ => True) shared shared := Drops.start
  replace hd := hd.step (p := 0) (.call (k := slot0) rfl (by decide) (unused rfl (by decide)))
    (Or.inr rfl) trivial
  replace hd := hd.step (p := 0) (.acquire rfl rfl) (Or.inr rfl) trivial
  replace hd := hd.step (p := 0) (.keep rfl (by decide)) (Or.inr rfl) trivial
  replace hd := hd.step (p := 0) (.release rfl) (Or.inr rfl) trivial
  replace hd := hd.step (p := 1) (.call (k := slot0) rfl (by decide) (unused rfl (by decide)))
    (Or.inr rfl) trivial
  replace hd := hd.step (p := 1) (.acquire rfl rfl) (Or.inr rfl) trivial
  replace hd := hd.step (p := 1) (.keep rfl (by decide)) (Or.inr rfl) trivial
  replace hd := hd.step (p := 1) (.release rfl) (Or.inr rfl) trivial
  replace hd := hd.step (p := 1) (.drop rfl) (Or.inl rfl) trivial
  replace hd := hd.step (p := 0) (.drop rfl) (Or.inl rfl) trivial
  exact ⟨_,hd,rfl,by decide,rfl⟩

end Xv6.InodeCache
