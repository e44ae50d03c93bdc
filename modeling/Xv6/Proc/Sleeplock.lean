import Xv6.Lib.Token

/-!
# Sleep-locks

The functions of sleeplock.c, one step for every access to a lock, run by any processes on any
locks. The word `locked` is set exactly while some process has the lock, and never more than
one process has it. `holdingsleep` returns that word and does not compare the owner, so it
tells whether somebody has the lock, which is not whether the caller has it.
-/

set_option autoImplicit false

namespace Xv6.Sleeplock
open Xv6.Token

variable {P L : Type}

/-- `struct sleeplock`; `spin` is the process that has the spinlock `lk`. -/
structure Lock (P : Type) where
  spin : Option P
  locked : Bool
  pid : ℕ

def initsleeplock : Lock P := ⟨none,false,0⟩

/-- The next thing that a process inside one of the functions does. -/
inductive Pt
  -- acquiresleep, with its call of sleep
  | acquire
  | test
  | asleep
  | woken
  | take
  | own
  -- releasesleep
  | release
  | clear
  | unname
  | wake
  -- the final release of both
  | leave
  -- holdingsleep, and what it is about to return
  | holding
  | read
  | answer (r : Bool)
deriving DecidableEq

/-- One access of process `p` with process id `me`; `held` says whether `p` has the lock. The
call returns when there is no next point, and the process waits when there is no result. -/
def move [DecidableEq P] (p : P) (me : ℕ) (l : Lock P) (held : Bool) :
    Pt → Option (Option Pt × Lock P × Bool)
  | .acquire | .woken =>
    if l.spin = none then some (some .test,{ l with spin := some p },held) else none
  | .test =>
    -- sleep releases the spinlock and takes it again when it has been woken
    if l.locked then some (some .asleep,{ l with spin := none },held)
    else some (some .take,l,held)
  | .asleep => none
  | .take => some (some .own,{ l with locked := true },true)
  | .own => some (some .leave,{ l with pid := me },held)
  | .release =>
    if l.spin = none then some (some .clear,{ l with spin := some p },held) else none
  | .clear => some (some .unname,{ l with locked := false },false)
  | .unname => some (some .wake,{ l with pid := 0 },held)
  | .wake => some (some .leave,l,held)
  | .leave => some (none,{ l with spin := none },held)
  | .holding =>
    if l.spin = none then some (some .read,{ l with spin := some p },held) else none
  | .read => some (some (.answer l.locked),l,held)
  | .answer _ => some (none,{ l with spin := none },held)

/-- The locks, where the processes are, and which process has which lock. -/
structure St (P L : Type) where
  lock : L → Lock P
  pt : P → Option (L × Pt)
  held : P → L → Bool

def St.init : St P L := ⟨fun _ => initsleeplock,fun _ => none,fun _ _ => false⟩

/-- `wakeup(lk)`. -/
def wakeup [DecidableEq L] (lk : L) (o : Option (L × Pt)) : Option (L × Pt) :=
  if o = some (lk,.asleep) then some (lk,.woken) else o

section
variable [DecidableEq P] [DecidableEq L]

def St.put (s : St P L) (p : P) (lk : L) (o : Option Pt) (l : Lock P) (h : Bool) : St P L where
  lock := Function.update s.lock lk l
  pt := Function.update s.pt p (o.map (Prod.mk lk))
  held := Function.update s.held p (Function.update (s.held p) lk h)

def St.wakeup (s : St P L) (lk : L) : St P L :=
  { s with pt := fun q => Sleeplock.wakeup lk (s.pt q) }

/-- The next access of a process inside one of the functions. -/
def St.next (pid : P → ℕ) (s : St P L) (p : P) : Option (St P L) :=
  (s.pt p).bind fun x => (move p (pid p) (s.lock x.1) (s.held p x.1) x.2).map fun y =>
    if x.2 = .wake then (s.put p x.1 y.1 y.2.1 y.2.2).wakeup x.1 else s.put p x.1 y.1 y.2.1 y.2.2

/-- A process calls one of the functions, releasesleep only for a lock that it has; makes an
access inside one; or is woken out of its sleep by `kill`. -/
inductive Step (pid : P → ℕ) (s : St P L) : St P L → Prop
  | call {p : P} (lk : L) {pt : Pt} (hp : s.pt p = none)
      (hpt : pt = .acquire ∨ pt = .holding ∨ pt = .release ∧ s.held p lk = true) :
      Step pid s { s with pt := Function.update s.pt p (some (lk,pt)) }
  | move {p : P} {s' : St P L} (hn : s.next pid p = some s') : Step pid s s'
  | kill (q : P) (lk : L) :
      Step pid s { s with pt := Function.update s.pt q (Sleeplock.wakeup lk (s.pt q)) }

inductive Reach (pid : P → ℕ) : St P L → Prop
  | init : Reach pid St.init
  | step {s s' : St P L} (h : Reach pid s) (hs : Step pid s s') : Reach pid s'

end

/-- The points between `acquire` and `release` of the spinlock. -/
def inside : Option Pt → Prop
  | none | some .acquire | some .asleep | some .woken | some .release | some .holding => False
  | _ => True

/-- What is known at a point of a process that has the lock or not. -/
def Fits (l : Lock P) (held : Bool) : Option Pt → Prop
  | some .own | some .release | some .clear => held = true
  | some .take | some .unname => l.locked = false
  | some (.answer r) => r = l.locked
  | _ => True

/-- One lock, the points of the processes in its functions and the processes that have it. -/
structure Inv (pid : P → ℕ) (l : Lock P) (pts : P → Option Pt) (held : P → Bool) : Prop where
  spin : Agrees some inside l.spin pts
  one : ∀ p q, held p = true → held q = true → p = q
  locked : l.locked = true ↔ ∃ p, held p = true
  fits : ∀ p, Fits l (held p) (pts p)
  names : ∀ p, held p = true → l.pid = pid p ∨ pts p = some .own

theorem injective_some : Function.Injective (some : P → Option P) := Option.some_injective P

theorem Fits.outside {l l' : Lock P} {held : Bool} {o : Option Pt} (h : Fits l held o)
    (ho : ¬ inside o) : Fits l' held o := by
  cases o with
  | none => trivial
  | some pt => cases pt <;> first | exact h | exact absurd trivial ho

section
variable {pid : P → ℕ} {l l' : Lock P} {pts : P → Option Pt} {held : P → Bool}

theorem Inv.unheld (hi : Inv pid l pts held) (hl : l.locked = false) (q : P) : held q = false := by
  rw [Bool.eq_false_iff]
  intro hq
  have hlocked := hi.locked.mpr ⟨q,hq⟩
  rw [hl] at hlocked
  cases hlocked

theorem Inv.woken (hi : Inv pid l pts held) {pts' : P → Option Pt}
    (h : ∀ q, pts' q = pts q ∨ pts q = some .asleep ∧ pts' q = some .woken) :
    Inv pid l pts' held := by
  refine ⟨?_,hi.one,hi.locked,?_,?_⟩
  · intro q
    rcases h q with hq | ⟨hq,hq'⟩
    · rw [hq]
      exact hi.spin q
    · rw [hq', hi.spin q, hq]
      rfl
  · intro q
    rcases h q with hq | ⟨hq,hq'⟩
    · rw [hq]
      exact hi.fits q
    · rw [hq']
      trivial
  · intro q hh
    refine (hi.names q hh).imp_right ?_
    intro hown
    rcases h q with hq | ⟨hq,-⟩
    · rw [hq, hown]
    · rw [hq] at hown
      cases hown

variable [DecidableEq P]

theorem Inv.quiet (hi : Inv pid l pts held) {p : P} {o : Option Pt}
    (hs : Agrees some inside l'.spin (Function.update pts p o)) (hl : l'.locked = l.locked)
    (hpid : l'.pid = l.pid) (hown : pts p ≠ some .own) (ho : Fits l' (held p) o) :
    Inv pid l' (Function.update pts p o) held := by
  refine ⟨hs,hi.one,by rw [hl]; exact hi.locked,?_,?_⟩
  · intro q
    by_cases hq : q = p
    · subst hq
      rwa [Function.update_self]
    · rw [Function.update_of_ne hq]
      have hf := hi.fits q
      unfold Fits at hf ⊢
      rwa [hl]
  · intro q hh
    rw [hpid]
    refine (hi.names q hh).imp_right ?_
    intro hq
    rw [Function.update_of_ne, hq]
    rintro rfl
    exact hown hq

/-- The process that has the spinlock changes a word: nobody else is inside. -/
theorem Inv.change (hi : Inv pid l pts held) {p : P} {pt pt' : Pt} {h : Bool}
    (hp : pts p = some pt) (hin : inside (some pt)) (hin' : inside (some pt'))
    (hs : l'.spin = l.spin) (hpt : Fits l' h (some pt'))
    (hone : ∀ q r, Function.update held p h q = true → Function.update held p h r = true → q = r)
    (hl : l'.locked = true ↔ ∃ q, Function.update held p h q = true)
    (hnames : ∀ q, Function.update held p h q = true → l'.pid = pid q ∨ q = p ∧ pt' = .own) :
    Inv pid l' (Function.update pts p (some pt')) (Function.update held p h) := by
  refine ⟨?_,hone,hl,?_,?_⟩
  · rw [hs]
    exact hi.spin.keep (by rw [hp]; exact iff_of_true hin' hin)
  · intro q
    by_cases hq : q = p
    · subst hq
      rwa [Function.update_self, Function.update_self]
    · rw [Function.update_of_ne hq, Function.update_of_ne hq]
      apply (hi.fits q).outside
      intro hinq
      exact hq (hi.spin.unique injective_some hinq (by rw [hp]; exact hin))
  · intro q hh
    refine (hnames q hh).imp_right ?_
    rintro ⟨rfl,rfl⟩
    exact Function.update_self ..

theorem Inv.move (hi : Inv pid l pts held) {p : P} {pt : Pt} {o : Option Pt} {h : Bool}
    (hp : pts p = some pt) (hm : Sleeplock.move p (pid p) l (held p) pt = some (o,l',h)) :
    Inv pid l' (Function.update pts p o) (Function.update held p h) := by
  have hkeep : ∀ {pt'}, inside (some pt) → inside (some pt') →
      Agrees some inside l.spin (Function.update pts p (some pt')) := by
    intro pt' hin hin'
    exact hi.spin.keep (by rw [hp]; exact iff_of_true hin' hin)
  have hdrop : ∀ {o}, inside (some pt) → ¬ inside o →
      Agrees some inside none (Function.update pts p o) := by
    intro o hin hout
    exact hi.spin.drop injective_some (by rw [hp]; exact hin) (by simp) hout
  have htake : ∀ {pt'}, l.spin = none → inside (some pt') →
      Agrees some inside (some p) (Function.update pts p (some pt')) := by
    intro pt' hs hin
    exact hi.spin.take injective_some (by simp [hs]) hin
  cases pt with
  | acquire | woken | holding =>
    simp only [Sleeplock.move] at hm
    split_ifs at hm with hs
    cases hm
    rw [Function.update_eq_self]
    exact hi.quiet (htake hs trivial) rfl rfl (by simp [hp]) trivial
  | release =>
    simp only [Sleeplock.move] at hm
    split_ifs at hm with hs
    cases hm
    have hheld := hi.fits p
    rw [hp] at hheld
    rw [Function.update_eq_self]
    exact hi.quiet (htake hs trivial) rfl rfl (by simp [hp]) hheld
  | test =>
    simp only [Sleeplock.move] at hm
    split_ifs at hm with hl
    · cases hm
      rw [Function.update_eq_self]
      exact hi.quiet (hdrop trivial id) rfl rfl (by simp [hp]) trivial
    · cases hm
      rw [Function.update_eq_self]
      exact hi.quiet (hkeep trivial trivial) rfl rfl (by simp [hp]) (Bool.eq_false_iff.mpr hl)
  | asleep => cases hm
  | wake =>
    cases hm
    rw [Function.update_eq_self]
    exact hi.quiet (hkeep trivial trivial) rfl rfl (by simp [hp]) trivial
  | read =>
    cases hm
    rw [Function.update_eq_self]
    exact hi.quiet (hkeep trivial trivial) rfl rfl (by simp [hp]) rfl
  | leave | answer _ =>
    cases hm
    rw [Function.update_eq_self]
    exact hi.quiet (hdrop trivial id) rfl rfl (by simp [hp]) trivial
  | take =>
    cases hm
    have hfree := hi.fits p
    rw [hp] at hfree
    have honly : ∀ q, Function.update held p true q = true → q = p := by
      intro q hq
      by_contra hne
      rw [Function.update_of_ne hne, hi.unheld hfree] at hq
      cases hq
    refine hi.change hp trivial trivial rfl rfl ?_ ?_ ?_
    · intro q r hq hr
      rw [honly q hq, honly r hr]
    · exact iff_of_true rfl ⟨p,Function.update_self ..⟩
    · intro q hq
      exact .inr ⟨honly q hq,rfl⟩
  | own =>
    cases hm
    have hheld := hi.fits p
    rw [hp] at hheld
    refine hi.change hp trivial trivial rfl trivial ?_ ?_ ?_ <;> rw [Function.update_eq_self]
    · exact hi.one
    · exact hi.locked
    · intro q hq
      rw [hi.one q p hq hheld]
      exact .inl rfl
  | clear =>
    cases hm
    have hheld := hi.fits p
    rw [hp] at hheld
    have hnone : ∀ q, Function.update held p false q ≠ true := by
      intro q hq
      by_cases hne : q = p
      · rw [hne, Function.update_self] at hq
        cases hq
      · rw [Function.update_of_ne hne] at hq
        exact hne (hi.one q p hq hheld)
    refine hi.change hp trivial trivial rfl rfl ?_ ?_ ?_
    · intro q r hq
      exact absurd hq (hnone q)
    · exact iff_of_false Bool.false_ne_true fun hq => hnone _ hq.choose_spec
    · intro q hq
      exact absurd hq (hnone q)
  | unname =>
    cases hm
    have hfree := hi.fits p
    rw [hp] at hfree
    refine hi.change hp trivial trivial rfl trivial ?_ ?_ ?_ <;> rw [Function.update_eq_self]
    · exact hi.one
    · exact hi.locked
    · intro q hq
      rw [hi.unheld hfree] at hq
      cases hq

theorem Inv.call (hi : Inv pid l pts held) {p : P} {pt : Pt} (hp : pts p = none)
    (hpt : pt = .acquire ∨ pt = .holding ∨ pt = .release ∧ held p = true) :
    Inv pid l (Function.update pts p (some pt)) held := by
  have hout : ¬ inside (some pt) := by
    rcases hpt with rfl | rfl | ⟨rfl,-⟩ <;> exact id
  refine hi.quiet (hi.spin.keep ?_) rfl rfl (by simp [hp]) ?_
  · rw [hp]
    exact iff_of_false hout id
  · rcases hpt with rfl | rfl | ⟨rfl,hh⟩
    · trivial
    · trivial
    · exact hh

end

/-- Where a process is in the functions of the lock `lk`. -/
def view [DecidableEq L] (lk : L) (o : Option (L × Pt)) : Option Pt :=
  o.bind fun x => if x.1 = lk then some x.2 else none

def St.Ok [DecidableEq L] (pid : P → ℕ) (s : St P L) : Prop :=
  ∀ lk, Inv pid (s.lock lk) (fun p => view lk (s.pt p)) (fun p => s.held p lk)

section
variable [DecidableEq P] [DecidableEq L] {pid : P → ℕ} {s s' : St P L}

theorem view_eq_some {lk : L} {o : Option (L × Pt)} {pt : Pt} :
    view lk o = some pt ↔ o = some (lk,pt) := by
  cases o with
  | none => exact iff_of_false (by rintro ⟨⟩) (by rintro ⟨⟩)
  | some x =>
    obtain ⟨lk',pt'⟩ := x
    simp [view]

theorem view_self (lk : L) (o : Option Pt) : view lk (o.map (Prod.mk lk)) = o := by
  cases o with
  | none => rfl
  | some pt => exact if_pos rfl

theorem view_other {lk lk' : L} (h : lk' ≠ lk) (o : Option Pt) :
    view lk' (o.map (Prod.mk lk)) = none := by
  cases o with
  | none => rfl
  | some pt => exact if_neg h.symm

theorem view_update (lk : L) (p : P) (o : Option (L × Pt)) :
    (fun q => view lk (Function.update s.pt p o q)) =
      Function.update (fun q => view lk (s.pt q)) p (view lk o) := by
  funext q
  by_cases hq : q = p
  · subst hq
    rw [Function.update_self, Function.update_self]
  · rw [Function.update_of_ne hq, Function.update_of_ne hq]

theorem view_wakeup (lk lk' : L) (o : Option (L × Pt)) : view lk' (wakeup lk o) = view lk' o ∨
    view lk' o = some .asleep ∧ view lk' (wakeup lk o) = some .woken := by
  unfold wakeup
  split_ifs with ho
  · subst ho
    by_cases hlk : lk = lk'
    · exact .inr ⟨if_pos hlk,if_pos hlk⟩
    · exact .inl ((if_neg hlk).trans (if_neg hlk).symm)
  · exact .inl rfl

theorem held_update (lk : L) (p : P) (h : Bool) :
    (fun q => Function.update s.held p (Function.update (s.held p) lk h) q lk) =
      Function.update (fun q => s.held q lk) p h := by
  funext q
  by_cases hq : q = p
  · subst hq
    rw [Function.update_self, Function.update_self, Function.update_self]
  · rw [Function.update_of_ne hq, Function.update_of_ne hq]

theorem held_other {lk lk' : L} (hne : lk' ≠ lk) (p : P) (h : Bool) :
    (fun q => Function.update s.held p (Function.update (s.held p) lk h) q lk') =
      fun q => s.held q lk' := by
  funext q
  by_cases hq : q = p
  · subst hq
    rw [Function.update_self, Function.update_of_ne hne]
  · rw [Function.update_of_ne hq]

theorem view_moved {lk lk' : L} (hne : lk' ≠ lk) {p : P} {o o' : Option Pt}
    (hp : s.pt p = o.map (Prod.mk lk)) :
    (fun q => view lk' (Function.update s.pt p (o'.map (Prod.mk lk)) q)) =
      fun q => view lk' (s.pt q) := by
  rw [view_update, view_other hne, ← view_other hne o, ← hp]
  exact Function.update_eq_self p _

theorem St.Ok.put (hi : s.Ok pid) {p : P} {lk : L} {pt : Pt} {o : Option Pt} {l : Lock P} {h : Bool}
    (hp : s.pt p = some (lk,pt))
    (hm : Sleeplock.move p (pid p) (s.lock lk) (s.held p lk) pt = some (o,l,h)) :
    (s.put p lk o l h).Ok pid := by
  intro lk'
  dsimp only [St.put]
  by_cases hlk : lk' = lk
  · subst hlk
    rw [Function.update_self, view_update, view_self, held_update]
    exact (hi lk').move (by rw [hp]; exact view_self lk' (some pt)) hm
  · rw [Function.update_of_ne hlk, view_moved hlk (o := some pt) hp, held_other hlk]
    exact hi lk'

theorem St.Ok.step (hi : s.Ok pid) (hs : Step pid s s') : s'.Ok pid := by
  cases hs with
  | @call p lk pt hp hpt =>
    intro lk'
    by_cases hlk : lk' = lk
    · subst hlk
      change Inv pid _ (fun q => view lk' (Function.update s.pt p ((some pt).map (Prod.mk lk')) q)) _
      rw [view_update, view_self]
      exact (hi lk').call (by rw [hp]; rfl) hpt
    · change Inv pid _ (fun q => view lk' (Function.update s.pt p ((some pt).map (Prod.mk lk)) q)) _
      rw [view_moved hlk (o := none) hp]
      exact hi lk'
  | @move p _ hn =>
    obtain ⟨⟨lk,pt⟩,hp,hn⟩ := Option.bind_eq_some_iff.mp hn
    obtain ⟨⟨o,l,h⟩,hm,rfl⟩ := Option.map_eq_some_iff.mp hn
    dsimp only
    split_ifs
    · intro lk'
      apply (hi.put hp hm lk').woken
      intro q
      exact view_wakeup lk lk' _
    · exact hi.put hp hm
  | kill q lk =>
    intro lk'
    apply (hi lk').woken
    intro q'
    by_cases hq : q' = q
    · subst hq
      dsimp only
      rw [Function.update_self]
      exact view_wakeup lk lk' _
    · exact .inl (congrArg (view lk') (Function.update_of_ne hq ..))

theorem Reach.ok (h : Reach pid s) : s.Ok pid := by
  induction h with
  | init =>
    intro lk
    refine ⟨?_,?_,?_,fun _ => trivial,?_⟩
    · intro p
      exact iff_of_false (by rintro ⟨⟩) id
    · intro p q hp
      cases hp
    · exact iff_of_false Bool.false_ne_true fun hp => Bool.false_ne_true hp.choose_spec
    · intro p hp
      cases hp
  | step _ hs ih => exact ih.step hs

theorem Reach.run {w : List P} (h : Reach pid s) (hw : w.foldlM (St.next pid) s = some s') :
    Reach pid s' := by
  induction w generalizing s with
  | nil =>
    cases hw
    exact h
  | cons p w ih =>
    obtain ⟨t,ht,hw⟩ := Option.bind_eq_some_iff.mp hw
    exact ih (.step h (.move ht)) hw

end

/-- The functions that check with `holdingsleep` that their caller has the lock. -/
inductive Checked
  | bwrite
  | brelse
  | iderw
  | iunlock

def Checked.message : Checked → String
  | .bwrite => "bwrite"
  | .brelse => "brelse"
  | .iderw => "iderw: buf not locked"
  | .iunlock => "iunlock"

/-- The panic of the check when `holdingsleep` returns `r`. -/
def Checked.panics (f : Checked) (r : Bool) : Option String := if !r then some f.message else none

theorem asked (q : Bool) : ∃ s : St Bool Unit, Reach (fun p => if p then 2 else 1) s ∧
    s.pt q = some ((),.answer true) ∧ s.held false () = true ∧ s.held true () = false := by
  cases q with
  | false =>
    exact ⟨_,(Reach.run (w := List.replicate 2 false) (.step (Reach.run
      (w := List.replicate 5 false) (.step .init (.call (p := false) () rfl (.inl rfl))) rfl)
      (.call (p := false) () rfl (.inr (.inl rfl)))) rfl),rfl,rfl,rfl⟩
  | true =>
    exact ⟨_,(Reach.run (w := List.replicate 2 true) (.step (Reach.run
      (w := List.replicate 5 false) (.step .init (.call (p := false) () rfl (.inl rfl))) rfl)
      (.call (p := true) () rfl (.inr (.inl rfl)))) rfl),rfl,rfl,rfl⟩

/-- At most one process has a lock, and `holdingsleep` tells whether one has it. So where no
other process has the lock, it tells whether the caller has it, and the functions that check
it panic for a caller that does not. The word `pid` names the owner. -/
theorem sleeplock_ownership [DecidableEq P] [DecidableEq L] (pid : P → ℕ) (s : St P L)
    (h : Reach pid s) (lk : L) :
    (∀ p q, s.held p lk = true → s.held q lk = true → p = q) ∧
    (∀ q r, s.pt q = some (lk,.answer r) →
      (r = true ↔ ∃ p, s.held p lk = true) ∧
      ((∀ p, s.held p lk = true → p = q) → (r = true ↔ s.held q lk = true) ∧
        ∀ f : Checked, s.held q lk = false → f.panics r = some f.message)) ∧
    ∀ p, s.held p lk = true → (s.lock lk).pid = pid p ∨ s.pt p = some (lk,.own) := by
  have hi := h.ok lk
  refine ⟨hi.one,?_,?_⟩
  · intro q r hq
    have hr : r = (s.lock lk).locked := by
      have hf := hi.fits q
      rwa [view_eq_some.mpr hq] at hf
    have hiff : r = true ↔ ∃ p, s.held p lk = true := by
      rw [hr]
      exact hi.locked
    refine ⟨hiff,?_⟩
    intro honly
    have hcaller : r = true ↔ s.held q lk = true := by
      rw [hiff]
      constructor
      · rintro ⟨p,hp⟩
        rw [← honly p hp]
        exact hp
      · intro hh
        exact ⟨q,hh⟩
    refine ⟨hcaller,?_⟩
    intro f hh
    have hfalse : r = false := by
      rw [Bool.eq_false_iff]
      intro ht
      rw [hcaller.mp ht] at hh
      cases hh
    rw [hfalse]
    rfl
  · intro p hp
    exact (hi.names p hp).imp_right view_eq_some.mp

/-- The owner asks. -/
theorem sleeplock_ownership_asked : ∃ s : St Bool Unit, Reach (fun p => if p then 2 else 1) s ∧
    s.pt false = some ((),.answer true) ∧ (∃ p, s.held p () = true) ∧
    ∀ p q, s.held p () = true → s.held q () = true → p = q := by
  obtain ⟨s,h,hq,-⟩ := asked false
  obtain ⟨hone,hans,-⟩ := sleeplock_ownership _ s h ()
  exact ⟨s,h,hq,(hans false true hq).1.mp rfl,hone⟩

/-- Another process asks, and is told that it has the lock; no check rejects it. -/
theorem holdingsleep_other : ∃ s : St Bool Unit, Reach (fun p => if p then 2 else 1) s ∧
    s.pt true = some ((),.answer true) ∧ s.held false () = true ∧ s.held true () = false ∧
    ∀ f : Checked, f.panics true = none := by
  obtain ⟨s,h,hq,hown,hother⟩ := asked true
  exact ⟨s,h,hq,hown,hother,fun _ => rfl⟩

end Xv6.Sleeplock
