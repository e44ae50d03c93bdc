import Xv6.Fs.InodeRules

/-!
# Coherence of the inode cache

Every step of every interleaving keeps the invariant. An inode that is free on the
disk is loaded only in the hands of the `iput` that freed it, so `ialloc` never writes
behind a loaded entry, and a number that is given out again finds its old entry either
gone or invalid.
-/

set_option autoImplicit false

namespace Xv6.InodeCache
open Xv6.Fs Xv6.Refs

variable {n : ℕ} {s s' : St n} {p : Fin n} {x : Pc} {k : Fin NINODE} {e : CEntry n}

theorem Inv.put (hi : Inv s) (hs : PutStep s p s') : Inv s' := by
  cases hs with
  | @call k hp hk hu =>
    refine hi.change (p := p) (x := .put .wait k) (k := k) (e := s.entry k)
      ⟨rfl,(Function.update_eq_self k s.entry).symm,Or.inl rfl⟩ (fun hr => Or.inl ⟨hr,rfl,rfl⟩)
      (fun l => ?_) (by simp [Pc.inside]) (fun l hl => ?_) (fun l hl => ?_) (fun q l hq hl => ?_)
      (fun l _ _ _ _ => rfl) (by simp [hp, Pc.Spent]) ?_ ?_
    · have hpos := List.count_pos_iff.mpr hk
      by_cases hlk : k = l
      · subst hlk
        simp [hp, Pc.dropping, St.goto, List.count_erase_self]
        omega
      · simp [hp, Pc.dropping, St.goto, hlk, List.count_erase_of_ne (Ne.symm hlk)]
    · obtain rfl : k = l := by simpa using hl
      exact ⟨rfl,fun hl => (hu p (Or.inr (Or.inr ⟨hl,by simp [hp]⟩))).1 rfl⟩
    · simp only [St.Uses, St.goto, Function.update_self] at hl
      obtain ⟨hl,hne⟩ : (s.entry l).lock = some p ∧ k ≠ l := by simpa using hl
      exact (List.mem_erase_of_ne (Ne.symm hne)).mpr (hi.locked_ref hl (by simp [hp]))
    · by_cases hlk : l = k
      · subst hlk
        exact (hu q hl).2
      · exact (List.mem_erase_of_ne hlk).mpr (hi.uses q l hl)
    · exact hi.still k rfl (by simp [hp, Pc.Spent])
    · exact hi.cleans k rfl (by simp [Pc.inside])
  | @acquire k hp hl =>
    exact hi.phase (e := { s.entry k with lock := some p }) hp ⟨rfl,rfl,Or.inr (Or.inl ⟨hl,rfl⟩)⟩
      rfl ⟨rfl,rfl,rfl⟩ (fun _ _ => rfl) (by simp) (fun _ _ _ => rfl)
      (fun hr hv => Or.inl (hi.free_settled hl hr hv)) (hi.free_clean hl)
  | @last k hp hv hn hr =>
    have hin : (s.pc p).inside = some k := by rw [hp]; rfl
    have hl := hi.inside p k hin
    exact hi.phase (e := s.entry k) hp ⟨rfl,(Function.update_eq_self k s.entry).symm,Or.inl rfl⟩ rfl
      ⟨rfl,rfl,rfl⟩ (fun _ _ => hl) (by simp) (fun _ _ _ => rfl)
      (fun hr hv => Or.inl (hi.own_settled hl (by simp [hp, Pc.Spent]) hr hv)) (hi.own_clean hin)
  | @keep k hp h =>
    have hin : (s.pc p).inside = some k := by rw [hp]; rfl
    have hl := hi.inside p k hin
    exact hi.phase (e := s.entry k) hp ⟨rfl,(Function.update_eq_self k s.entry).symm,Or.inl rfl⟩ rfl
      ⟨rfl,rfl,rfl⟩ (fun _ _ => hl) (by simp) (fun _ _ _ => rfl)
      (fun hr hv => Or.inl (hi.own_settled hl (by simp [hp, Pc.Spent]) hr hv)) (hi.own_clean hin)
  | @truncate k ip hp hip =>
    have hin : (s.pc p).inside = some k := by rw [hp]; rfl
    have hl := hi.inside p k hin
    have hpos : 0 < (s.entry k).ref := hi.ref_pos (by rw [hp]; rfl)
    refine hi.phase (e := { s.entry k with ip := ip }) hp ⟨rfl,rfl,Or.inl rfl⟩ rfl ⟨rfl,rfl,rfl⟩
      (fun _ _ => hl) (by simp) (fun l hlk hr => hi.write_apart hpos ip hlk hr)
      (fun hr hv => Or.inl ?_) (hi.own_clean hin)
    have ht : ip.type ≠ 0 := by
      rw [hip]
      exact (hi.own_settled hl (by simp [hp, Pc.Spent]) hr hv).1
    exact settled_write s k ht
  | @free k ip hp hip =>
    have hin : (s.pc p).inside = some k := by rw [hp]; rfl
    have hl := hi.inside p k hin
    have hpos : 0 < (s.entry k).ref := hi.ref_pos (by rw [hp]; rfl)
    exact hi.phase (e := { s.entry k with ip := ip }) hp ⟨rfl,rfl,Or.inl rfl⟩ rfl ⟨rfl,rfl,rfl⟩
      (fun _ _ => hl) (by simp) (fun l hlk hr => hi.write_apart hpos ip hlk hr)
      (fun hr hv => Or.inr ⟨p,hl,Or.inl (Function.update_self ..)⟩) (hi.own_clean hin)
  | @invalidate k hp =>
    have hin : (s.pc p).inside = some k := by rw [hp]; rfl
    exact hi.phase (e := { s.entry k with valid := false }) hp ⟨rfl,rfl,Or.inl rfl⟩ rfl
      ⟨rfl,rfl,rfl⟩ (fun _ _ => hi.inside p k hin) (by simp) (fun _ _ _ => rfl) (by simp)
      (hi.own_clean hin)
  | @release k hp =>
    have hin : (s.pc p).inside = some k := by rw [hp]; rfl
    have hl := hi.inside p k hin
    exact hi.phase (e := { s.entry k with lock := none }) hp ⟨rfl,rfl,Or.inr (Or.inr ⟨hl,rfl⟩)⟩ rfl
      ⟨rfl,rfl,rfl⟩ (by simp) (by simp) (fun _ _ _ => rfl)
      (fun hr hv => Or.inl (hi.own_settled hl (by simp [hp, Pc.Spent]) hr hv)) (hi.own_clean hin)
  | @drop k hp =>
    have hpos : 0 < (s.entry k).ref := hi.ref_pos (by rw [hp]; rfl)
    refine hi.change (p := p) (x := .run) (k := k) (e := { s.entry k with ref := (s.entry k).ref-1 })
      ⟨rfl,rfl,Or.inl rfl⟩ (fun hr => Or.inl ⟨hpos,rfl,rfl⟩) (fun l => ?_) (by simp [Pc.inside])
      (by simp) (fun l hu => ?_) (fun q l _ hq => hi.uses q l hq) (fun _ _ _ _ _ => rfl)
      (by simp [hp, Pc.Spent]) (fun _ hv => ?_) ?_
    · by_cases hlk : l = k
      · subst hlk
        simp [hp, Pc.dropping, St.goto, St.edit]
        omega
      · simp [hp, Pc.dropping, St.goto, St.edit, hlk, Ne.symm hlk]
    · -- the lock that `iput` took is not among those the process still has
      have hlk : l ≠ k := by
        rintro rfl
        apply hi.apart p l (Or.inr hp)
        simpa [St.Uses, St.goto, St.edit] using hu
      have hl : (s.entry l).lock = some p := by simpa [St.Uses, St.goto, St.edit, hlk] using hu
      exact hi.locked_ref hl (by simp [hp, Ne.symm hlk])
    · exact hi.still k rfl (by simp [hp, Pc.Spent]) hpos hv
    · exact hi.cleans k rfl (by simp [Pc.inside])

/-! ## The callers -/

/-- The points of a process that is neither inside `iput` nor stopped by a panic. -/
def Pc.Calls (x : Pc) : Prop := (∀ ph l, x ≠ .put ph l) ∧ ∀ msg, x ≠ .panic msg

theorem Pc.Calls.dropping (h : x.Calls) : x.dropping = none := by
  cases x with
  | put ph l => exact absurd rfl (h.1 ph l)
  | _ => rfl

theorem Pc.Calls.spent (h : x.Calls) (l : Fin NINODE) : ¬ x.Spent l := by
  rintro (hx | ⟨msg,hx⟩)
  · exact h.1 _ _ hx
  · exact h.2 _ hx

theorem Inv.pass (hi : Inv s) (hpc : s'.pc = Function.update s.pc p x) (hentry : s'.entry = s.entry)
    (hrefs : s'.refs = s.refs) (hp : (s.pc p).Calls) (hx : x.dropping = none ∧ x.inside = none)
    (hlock : ∀ l, x = .lock l → l ∈ s.refs)
    (hdisk : ∀ l, Settled (s.entry l) (s.dinode l) →
      s'.disk (s.entry l).dev (s.entry l).inum = s.dinode l) : Inv s' := by
  refine hi.goto (k := ⟨0,by decide⟩) hpc hentry hrefs (hx.1.trans hp.dropping.symm) (by simp [hx.2])
    (fun l => ⟨?_,?_⟩) (fun l hu => ?_) hp.spent hdisk
  · rintro rfl
    cases hx.1
  · rintro rfl
    cases hx.1
  · rcases hu with hu | hu | ⟨hu,-⟩
    · rw [hpc, Function.update_self] at hu
      exact hlock l hu
    · rw [hpc, Function.update_self] at hu
      subst hu
      cases hx.2
    · rw [hentry] at hu
      exact hi.locked_ref hu fun ph => hp.1 ph l

theorem Inv.holder (hi : Inv s) (h : Change s s' p x k e) (hp : (s.pc p).Calls)
    (hx : x.dropping = none) (hxl : ∀ l, x ≠ .lock l) (hk : k ∈ s.refs) (hrefs : s'.refs = s.refs)
    (hkey : e.ref = (s.entry k).ref ∧ e.dev = (s.entry k).dev ∧ e.inum = (s.entry k).inum)
    (hinside : ∀ l, x.inside = some l → l = k ∧ e.lock = some p)
    (hdisk : ∀ l, l ≠ k → 0 < (s.entry l).ref →
      s'.disk (s.entry l).dev (s.entry l).inum = s.dinode l)
    (hloaded : 0 < e.ref → e.valid = true → Settled e (s'.disk e.dev e.inum) ∨
      ∃ q, e.lock = some q ∧ (s'.pc q).Spent k)
    (hclean : e.dirty = true → ∃ q, e.lock = some q ∧ (s'.pc q).inside ≠ some k) : Inv s' := by
  obtain ⟨h1,h2,h3⟩ := hkey
  refine hi.change h (fun hr => Or.inl ⟨by omega,h2,h3⟩) (fun l => ?_) hinside (fun l hl => ?_)
    (fun l hu => ?_) (fun q l _ hq => by rw [hrefs]; exact hi.uses q l hq)
    (fun l hl hr _ _ => hdisk l hl hr) (fun l hl => absurd hl (hp.spent l)) hloaded hclean
  · rw [h.ref h1 l, hrefs, hp.dropping, hx]
  · rcases hl with rfl | rfl <;> cases hx
  · rw [hrefs]
    by_cases hlk : l = k
    · rwa [hlk]
    · rcases hu with hu | hu | ⟨hu,-⟩
      · rw [h.self] at hu
        exact absurd hu (hxl l)
      · rw [h.self] at hu
        exact absurd (hinside l (by rw [hu]; rfl)).1 hlk
      · rw [h.keeps hlk] at hu
        exact hi.locked_ref hu fun ph => hp.1 ph l

theorem Inv.caller (hi : Inv s) (h : Change s s' p .run k e) (hp : (s.pc p).Calls)
    (hkey : 0 < e.ref → (0 < (s.entry k).ref ∧ e.dev = (s.entry k).dev ∧ e.inum = (s.entry k).inum) ∨
      ∀ l, 0 < (s.entry l).ref → ¬ ((s.entry l).dev = e.dev ∧ (s.entry l).inum = e.inum))
    (hcount : ∀ l, (s'.entry l).ref+s.refs.count l = (s.entry l).ref+s'.refs.count l)
    (hlock : e.lock = some p → k ∈ s.refs) (hrefs : s.refs ⊆ s'.refs)
    (hdisk : ∀ l, l ≠ k → 0 < (s.entry l).ref →
      s'.disk (s.entry l).dev (s.entry l).inum = s.dinode l)
    (hloaded : 0 < e.ref → e.valid = true → Settled e (s'.disk e.dev e.inum) ∨
      ∃ q, e.lock = some q ∧ (s'.pc q).Spent k)
    (hclean : e.dirty = true → ∃ q, e.lock = some q ∧ (s'.pc q).inside ≠ some k) : Inv s' := by
  refine hi.change h hkey (fun l => ?_) (by simp [Pc.inside]) (by simp) (fun l hu => hrefs ?_)
    (fun q l _ hq => hrefs (hi.uses q l hq)) (fun l hl hr _ _ => hdisk l hl hr)
    (fun l hl => absurd hl (hp.spent l)) hloaded hclean
  · rw [hp.dropping]
    exact hcount l
  · simp only [St.Uses, h.self] at hu
    have hl : (s'.entry l).lock = some p := by simpa using hu
    by_cases hlk : l = k
    · subst hlk
      rw [h.at] at hl
      exact hlock hl
    · rw [h.keeps hlk] at hl
      exact hi.locked_ref hl fun ph => hp.1 ph l

theorem stays (hp : s.pc p = .run) : s.pc = Function.update s.pc p .run := by
  rw [← hp]
  exact (Function.update_eq_self p s.pc).symm

theorem cached_some {dev inum : ℕ} (h : s.cached dev inum = some k) :
    0 < (s.entry k).ref ∧ (s.entry k).dev = dev ∧ (s.entry k).inum = inum := by
  simpa using List.find?_some h

theorem cached_none {dev inum : ℕ} (h : s.cached dev inum = none) (l : Fin NINODE)
    (hl : 0 < (s.entry l).ref) : ¬ ((s.entry l).dev = dev ∧ (s.entry l).inum = inum) := by
  have hn := List.find?_eq_none.mp h l (List.mem_finRange l)
  simpa [hl] using hn

theorem empty_some (h : s.empty = some k) : (s.entry k).ref = 0 := by simpa using List.find?_some h

theorem Inv.another (hi : Inv s) (h : Change s s' p .run k { s.entry k with ref := (s.entry k).ref+1 })
    (hp : (s.pc p).Calls) (hr : 0 < (s.entry k).ref) (hrefs : s'.refs = k::s.refs)
    (hdisk : s'.disk = s.disk) : Inv s' := by
  refine hi.caller h hp (fun _ => Or.inl ⟨hr,rfl,rfl⟩) (fun l => ?_) (fun hl => ?_) ?_ ?_ (fun _ hv => ?_) ?_
  · rw [hrefs]
    by_cases hlk : l = k
    · subst hlk
      rw [h.at, List.count_cons_self]
      dsimp only
      omega
    · rw [h.keeps hlk, List.count_cons_of_ne (Ne.symm hlk)]
  · exact hi.locked_ref hl fun ph => hp.1 ph k
  · rw [hrefs]
    exact List.subset_cons_self k s.refs
  · rw [hdisk]
    exact fun l _ _ => rfl
  · rw [hdisk]
    exact hi.still k h.pc (hp.spent k) hr hv
  · exact hi.cleans k h.pc (by simp [Pc.inside])

theorem Inv.step {ninodes : ℕ} (hi : Inv s) (hs : Step ninodes s p s') : Inv s' := by
  cases hs with
  | iput h => exact hi.put h
  | ialloc hp ht =>
    exact hi.pass rfl rfl rfl (by simp [Pc.Calls, hp]) ⟨rfl,rfl⟩ (by simp) fun _ _ => rfl
  | allocNext hp hn ht =>
    exact hi.pass rfl rfl rfl (by simp [Pc.Calls, hp]) ⟨rfl,rfl⟩ (by simp) fun _ _ => rfl
  | @allocTake dev inum type hp hn ht =>
    -- no loaded entry is for an inode that is free on the disk
    refine hi.pass rfl rfl rfl (by simp [Pc.Calls, hp]) ⟨rfl,rfl⟩ (by simp) fun l hs => ?_
    refine (write_disk s dev inum (Sys.fresh type) _ _).trans (if_neg ?_)
    rintro ⟨h1,h2⟩
    apply hs.2.1
    rw [St.dinode, h1, h2, ht]
  | allocNone hp hn =>
    exact hi.pass rfl rfl rfl (by simp [Pc.Calls, hp]) ⟨rfl,rfl⟩ (by simp) fun _ _ => rfl
  | iget hp => exact hi.pass rfl rfl rfl (by simp [Pc.Calls, hp]) ⟨rfl,rfl⟩ (by simp) fun _ _ => rfl
  | @getCached dev inum k hp hk =>
    exact hi.another ⟨rfl,rfl,Or.inl rfl⟩ (by simp [Pc.Calls, hp]) (cached_some hk).1 rfl rfl
  | @getEmpty dev inum k hp hc hk =>
    have hr := empty_some hk
    refine hi.caller (k := k) (e := { s.entry k with dev := dev, inum := inum, ref := 1, valid := false })
      ⟨rfl,rfl,Or.inl rfl⟩ (by simp [Pc.Calls, hp])
      (fun _ => Or.inr fun l hl => cached_none hc l hl) (fun l => ?_) (fun hl => ?_)
      (List.subset_cons_self k s.refs) (fun _ _ _ => rfl) (by simp) ?_
    · by_cases hlk : l = k
      · subst hlk
        simp [St.goto, St.edit, hr]
        omega
      · simp [St.goto, St.edit, hlk, Ne.symm hlk]
    · exact hi.locked_ref hl (by simp [hp])
    · exact hi.cleans k rfl (by simp [Pc.inside])
  | getNone hp hc hk =>
    exact hi.pass rfl rfl rfl (by simp [Pc.Calls, hp]) ⟨rfl,rfl⟩ (by simp) fun _ _ => rfl
  | @idup k hp hk =>
    exact hi.another (p := p) ⟨stays hp,rfl,Or.inl rfl⟩ (by simp [Pc.Calls, hp]) (hi.out_pos hk) rfl
      rfl
  | ilock hp hk hr =>
    refine hi.pass rfl rfl rfl (by simp [Pc.Calls, hp]) ⟨rfl,rfl⟩ (fun l hl => ?_) fun _ _ => rfl
    cases hl
    exact hk
  | lockPanic hp hk hr =>
    exact hi.pass rfl rfl rfl (by simp [Pc.Calls, hp]) ⟨rfl,rfl⟩ (by simp) fun _ _ => rfl
  | @lockAcquire k hp hl =>
    refine hi.holder (p := p) (x := .load k) (k := k) (e := { s.entry k with lock := some p })
      ⟨rfl,rfl,Or.inr (Or.inl ⟨hl,rfl⟩)⟩ (by simp [Pc.Calls, hp]) rfl (by simp)
      (hi.uses p k (Or.inl hp)) rfl ⟨rfl,rfl,rfl⟩ (by simp [Pc.inside]) (fun _ _ _ => rfl)
      (fun hr hv => Or.inl (hi.free_settled hl hr hv)) (fun hd => ?_)
    rw [show (s.entry k).dirty = false from hi.free_clean hl] at hd
    cases hd
  | loaded hp hv =>
    exact hi.pass rfl rfl rfl (by simp [Pc.Calls, hp]) ⟨rfl,rfl⟩ (by simp) fun _ _ => rfl
  | @load k hp hv ht =>
    exact hi.holder (p := p) (x := .run) (k := k)
      (e := { s.entry k with ip := s.dinode k, valid := true }) ⟨rfl,rfl,Or.inl rfl⟩
      (by simp [Pc.Calls, hp]) rfl (by simp) (hi.uses p k (Or.inr (Or.inl hp))) rfl ⟨rfl,rfl,rfl⟩
      (by simp [Pc.inside]) (fun _ _ _ => rfl) (fun _ _ => Or.inl ⟨ht,ht,fun _ => rfl⟩)
      (hi.cleans k rfl (by simp [Pc.inside]))
  | @loadPanic k hp hv ht =>
    have hl := hi.inside p k (by rw [hp]; rfl)
    exact hi.holder (p := p) (x := .panic "ilock: no type") (k := k)
      (e := { s.entry k with ip := s.dinode k, valid := true }) ⟨rfl,rfl,Or.inl rfl⟩
      (by simp [Pc.Calls, hp]) rfl (by simp) (hi.uses p k (Or.inr (Or.inl hp))) rfl ⟨rfl,rfl,rfl⟩
      (by simp [Pc.inside]) (fun _ _ _ => rfl)
      (fun _ _ => Or.inr ⟨p,hl,Or.inr ⟨_,Function.update_self ..⟩⟩)
      (hi.cleans k rfl (by simp [Pc.inside]))
  | @modify k ip hp hl hv ht =>
    exact hi.holder (p := p) (x := .run) (k := k) (e := { s.entry k with ip := ip, dirty := true })
      ⟨stays hp,rfl,Or.inl rfl⟩ (by simp [Pc.Calls, hp]) rfl (by simp)
      (hi.locked_ref hl (by simp [hp])) rfl ⟨rfl,rfl,rfl⟩ (by simp [Pc.inside]) (fun _ _ _ => rfl)
      (fun hr hv => Or.inl ⟨ht,(hi.own_settled hl (by simp [hp, Pc.Spent]) hr hv).2.1,by simp⟩)
      (fun _ => ⟨p,hl,by simp [St.edit, hp, Pc.inside]⟩)
  | @iupdate k hp hl hv =>
    have hk : k ∈ s.refs := hi.locked_ref hl (by simp [hp])
    have hpos := hi.out_pos hk
    have hs := hi.own_settled hl (by simp [hp, Pc.Spent]) hpos hv
    refine hi.holder (p := p) (x := .run) (k := k) (e := { s.entry k with dirty := false })
      ⟨stays hp,rfl,Or.inl rfl⟩ (by simp [Pc.Calls, hp]) rfl (by simp) hk rfl ⟨rfl,rfl,rfl⟩
      (by simp [Pc.inside]) (fun l hlk hr => hi.write_apart hpos _ hlk hr) (fun _ _ => Or.inl ?_)
      (by simp)
    obtain ⟨h1,h2,h3⟩ := settled_write s k hs.1
    exact ⟨h1,h2,fun _ => by simp [St.edit, write_disk]⟩
  | @iunlock k hp hl hd hr =>
    exact hi.holder (p := p) (x := .run) (k := k) (e := { s.entry k with lock := none })
      ⟨stays hp,rfl,Or.inr (Or.inr ⟨hl,rfl⟩)⟩ (by simp [Pc.Calls, hp]) rfl (by simp)
      (hi.locked_ref hl (by simp [hp])) rfl ⟨rfl,rfl,rfl⟩ (by simp [Pc.inside]) (fun _ _ _ => rfl)
      (fun hr hv => Or.inl (hi.own_settled hl (by simp [hp, Pc.Spent]) hr hv)) (by simp [hd])
  | unlockPanic hp hl =>
    exact hi.pass rfl rfl rfl (by simp [Pc.Calls, hp]) ⟨rfl,rfl⟩ (by simp) fun _ _ => rfl

theorem Reach.inv {ninodes : ℕ} {s₀ s : St n} (h : Reach ninodes s₀ s) (h₀ : Start s₀) : Inv s := by
  induction h with
  | start => exact h₀.inv
  | step _ hs ih => exact ih.step hs

/-- In every state that any number of processes reach: at most one entry in use for an
inode; `ref` counts the references that are out and those of the calls of `iput` that
have yet to drop theirs; and an entry in use that is valid and unlocked is the inode on
the disk in every field. -/
theorem inode_cache_coherent {ninodes : ℕ} {s₀ s : St n} (h₀ : Start s₀) (h : Reach ninodes s₀ s) :
    (∀ k l, 0 < (s.entry k).ref → 0 < (s.entry l).ref → (s.entry k).dev = (s.entry l).dev →
      (s.entry k).inum = (s.entry l).inum → k = l) ∧
    (∀ k, (s.entry k).ref = s.refs.count k+number (fun p => (s.pc p).dropping) k) ∧
    ∀ k, 0 < (s.entry k).ref → (s.entry k).valid = true → (s.entry k).lock = none →
      (s.entry k).ip = s.disk (s.entry k).dev (s.entry k).inum := by
  have hi := h.inv h₀
  refine ⟨hi.one,hi.count,fun k hr hv hl => ?_⟩
  exact (hi.free_settled hl hr hv).2.2 (hi.free_clean hl)

/-- The first entry of `icache`. -/
def slot0 : Fin NINODE := ⟨0,Nat.succ_pos 49⟩

/-- An empty cache over a disk on which every inode is an empty file with one link. -/
def oneLink : St 1 where
  disk _ _ := ⟨2,0,0,1,0,fun _ => 0⟩
  entry _ := ⟨0,0,0,false,⟨0,0,0,0,0,fun _ => 0⟩,none,false⟩
  refs := []
  pc _ := .run
  freed := []

theorem oneLink_start : Start oneLink :=
  ⟨fun _ => rfl,fun _ => rfl,fun _ => rfl,rfl,fun _ => rfl⟩

theorem inode_cache_coherent_loaded : ∃ s, Reach 200 oneLink s ∧ (s.entry slot0).ref = 1 ∧
    (s.entry slot0).ip = s.disk 1 7 := by
  have hr : Reach 200 oneLink oneLink := Reach.start
  replace hr := hr.step (show Step 200 oneLink 0 (oneLink.goto 0 (.get 1 7)) from .iget rfl)
  replace hr := hr.step (p := 0) (.getEmpty (k := slot0) rfl (by decide) (by decide))
  replace hr := hr.step (p := 0) (.ilock (k := slot0) rfl (by decide) (by decide))
  replace hr := hr.step (p := 0) (.lockAcquire rfl rfl)
  replace hr := hr.step (p := 0) (.load rfl rfl (by decide))
  replace hr := hr.step (p := 0) (.iunlock (k := slot0) rfl rfl rfl (by decide))
  exact ⟨_,hr,rfl,(inode_cache_coherent oneLink_start hr).2.2 slot0 (by decide) rfl rfl⟩

end Xv6.InodeCache
