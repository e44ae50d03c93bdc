import Xv6.Proc.Wakeup

/-!
# Killing sleepers

`kill` of `proc.c` beside `sleep` and `wakeup`: under `ptable.lock` it marks a
process as killed, which is data of the client, and makes it RUNNABLE if it is
SLEEPING. A process woken this way finds its condition false as often as not, so
it concerns a client only through its mark; what holds of `sleep` and `wakeup`
holds with `kill` among the steps.
-/

set_option autoImplicit false

namespace Xv6.Sleep

variable {σ K : Type} {n : ℕ}

def St.kill (mark : Fin n → σ → σ) (s : St σ K n) (q : Fin n) : St σ K n :=
  { s with
    data := mark q s.data
    state := if s.state q = .sleeping then Function.update s.state q .runnable else s.state }

variable (C : Client σ K) (mark : Fin n → σ → σ)

inductive KStep (s : St σ K n) : St σ K n → Prop where
  | step {s' : St σ K n} (hs : Step C s s') : KStep s s'
  | kill {q : Fin n} (hf : s.pt = .free) : KStep s (s.kill mark q)

inductive KReach (s₀ : St σ K n) : St σ K n → Prop where
  | start : KReach s₀ s₀
  | step {s s' : St σ K n} (h : KReach s₀ s) (hs : KStep C mark s s') : KReach s₀ s'

variable {C mark}

theorem kill_sleeping {s : St σ K n} {q r : Fin n} (h : (s.kill mark q).state r = .sleeping) :
    s.state r = .sleeping := by
  simp only [St.kill] at h
  split_ifs at h with hq
  · by_cases hr : r = q
    · subst hr
      exact hq
    · rwa [Function.update_of_ne hr] at h
  · exact h

theorem Locked.kill {s : St σ K n} (h : Locked C s) (q : Fin n) : Locked C (s.kill mark q) :=
  ⟨h.lk,h.pt,h.called⟩

theorem Placed.kill {s : St σ K n} (h : Placed s) (q : Fin n) : Placed (s.kill mark q) :=
  ⟨h.chan,fun r hr => h.state r (kill_sleeping hr)⟩

theorem Lulled.kill {s : St σ K n} {c : ℕ} {q r : Fin n} (h : Lulled (s.kill mark q) c r) :
    Lulled s c r := by
  obtain ⟨pc,k,hr,hat⟩ := h
  refine ⟨pc,k,hr,?_⟩
  rcases hat with rfl | rfl | ⟨hat,hs⟩
  · exact Or.inl rfl
  · exact Or.inr (Or.inl rfl)
  · exact Or.inr (Or.inr ⟨hat,kill_sleeping hs⟩)

variable {c : ℕ} {cond : σ → Prop} {owes : K → Prop}

theorem Watched.kill {s : St σ K n} (h : Watched s c cond owes)
    (hmark : ∀ q d, cond (mark q d) → cond d) (q : Fin n) :
    Watched (s.kill mark q) c cond owes :=
  ⟨fun r pc k hr hat hc => h.early r pc k hr hat (hmark q _ hc),
    fun r hl hc => h.late r hl.kill (hmark q _ hc)⟩

theorem KReach.locked {s₀ s : St σ K n} (h : KReach C mark s₀ s) (h₀ : Start C s₀) :
    Locked C s := by
  induction h with
  | start => exact h₀.locked
  | step _ hs ih =>
    cases hs with
    | step hs => exact ih.step hs
    | kill hf => exact ih.kill _

theorem KReach.placed {s₀ s : St σ K n} (h : KReach C mark s₀ s) (h₀ : Start C s₀) :
    Placed s := by
  induction h with
  | start => exact h₀.placed
  | step _ hs ih =>
    cases hs with
    | step hs => exact ih.step hs
    | kill hf => exact ih.kill _

theorem KReach.watched {I : St σ K n → Prop} {s₀ s : St σ K n} (h : KReach C mark s₀ s)
    (h₀ : Start C s₀) (hI : ∀ s, KReach C mark s₀ s → I s) (hk : Contract C I c cond owes)
    (hmark : ∀ q d, cond (mark q d) → cond d) : Watched s c cond owes := by
  induction h with
  | start => exact h₀.watched c cond owes
  | step hr hs ih =>
    cases hs with
    | step hs => exact ih.step hk (hI _ hr) (hr.locked h₀) (hr.placed h₀) hs
    | kill hf => exact ih.kill hmark _

theorem KReach.points {J : σ → (Fin n → K) → Prop} {s₀ s : St σ K n} (h : KReach C mark s₀ s)
    (h₀ : J s₀.data s₀.points)
    (hmove : ∀ m p (pts : Fin n → K) d k' d', J d pts → C.move m (pts p) d k' d' →
      J d' (Function.update pts p k'))
    (hmark : ∀ q (pts : Fin n → K) d, J d pts → J (mark q d) pts) : J s.data s.points := by
  induction h with
  | start => exact h₀
  | step _ hs ih =>
    cases hs with
    | step hs =>
      rcases hs.points with ⟨m,p,k',-,hm,hpts⟩ | ⟨hd,hpts⟩
      · rw [hpts]
        exact hmove m p _ _ k' _ ih hm
      · rwa [hd, hpts]
    | kill hf => exact hmark _ _ _ ih

/-! ## Facts under the lock -/

/-- What a point of the client says about the data as long as the lock is held: its
moves keep it, a point that does not hold the lock or that `sleep` returns to says
nothing, and only the holder changes the data. -/
structure Guarded (C : Client σ K) (G : K → σ → Prop) : Prop where
  move : ∀ {m k d k' d'}, C.move m k d k' d' → G k d → G k' d'
  free : ∀ {k d}, C.holds k = false → G k d
  sleep : ∀ {c k d k' d'}, C.move (.sleep c) k d k' d' → ∀ e, G k' e
  data : ∀ {m k d k' d'}, C.move m k d k' d' → d' = d ∨ C.holds k = true

theorem Guarded.other {G : K → σ → Prop} (hG : Guarded C G) {s : St σ K n} (hl : Locked C s)
    {q : Fin n} (hq : ¬ (s.ctl q).hasLk C) (d : σ) : G (s.points q) d := by
  rw [St.points]
  cases hc : s.ctl q with
  | run k =>
    rw [hc, Ctl.hasLk, Bool.not_eq_true] at hq
    exact hG.free hq
  | sleep pc c k =>
    obtain ⟨_,_,_,hm⟩ := hl.sleeping hc
    exact hG.sleep hm d
  | wakeup todo c k =>
    rw [hc, Ctl.hasLk, Bool.not_eq_true] at hq
    exact hG.free hq

theorem Guarded.step {G : K → σ → Prop} (hG : Guarded C G) {s s' : St σ K n} (hl : Locked C s)
    (hs : Step C s s') (h : ∀ p, G (s.points p) s.data) : ∀ p, G (s'.points p) s'.data := by
  rcases hs.points with ⟨m,p,k',hp,hm,hpts⟩ | ⟨hd,hpts⟩
  · intro q
    rw [hpts]
    by_cases hqp : q = p
    · subst hqp
      rw [Function.update_self]
      exact hG.move hm (h q)
    · rw [Function.update_of_ne hqp]
      rcases hG.data hm with hd | hh
      · rw [hd]
        exact h q
      · have hpl : (s.ctl p).hasLk C := by rwa [hp]
        exact hG.other hl (fun hql => hqp (hl.lk.unique (Option.some_injective _) hql hpl)) _
  · rwa [hd, hpts]

theorem KReach.guarded {G : K → σ → Prop} {s₀ s : St σ K n} (h : KReach C mark s₀ s)
    (h₀ : Start C s₀) (hG : Guarded C G) (hmark : ∀ q k d, G k d → G k (mark q d)) (p : Fin n) :
    G (s.points p) s.data := by
  revert p
  induction h with
  | start =>
    intro p
    obtain ⟨k,hk,hf⟩ := h₀.ctl p
    rw [St.points, hk]
    exact hG.free hf
  | step hr hs ih =>
    cases hs with
    | step hs => exact hG.step (hr.locked h₀) hs ih
    | kill hf => exact fun p => hmark _ _ _ (ih p)

end Xv6.Sleep
