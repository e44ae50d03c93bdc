import Xv6.Proc.Sleep

/-!
# No lost wakeup

A client sleeps on a channel while a condition is false, makes it true only under
its lock, and calls `wakeup` after that. The invariant below names, for every
process that has dropped the lock inside `sleep`, a process that is still due to
wake it whenever the condition holds; the lock span of `sleep` is what makes it
survive the scan of `wakeup1`.
-/

set_option autoImplicit false

namespace Xv6.Sleep

variable {σ K : Type} {n : ℕ} {C : Client σ K}

/-! ## Sleepers -/

/-- A SLEEPING process is at the end of `sleep` and its `chan` is the one it was given. -/
structure Placed (s : St σ K n) : Prop where
  chan : ∀ q pc c k, s.ctl q = .sleep pc c k → pc = .setState ∨ pc = .sched ∨ pc = .off →
    s.chan q = some c
  state : ∀ q, s.state q = .sleeping → ∃ pc c k, s.ctl q = .sleep pc c k ∧ (pc = .sched ∨ pc = .off)

theorem Start.placed {s : St σ K n} (h : Start C s) : Placed s := by
  constructor
  · intro q pc c k hq _
    obtain ⟨k',hk,-⟩ := h.ctl q
    rw [hk] at hq
    cases hq
  · intro q hq
    rw [h.state q] at hq
    cases hq

theorem Placed.goto {s s' : St σ K n} (h : Placed s) {p : Fin n} {c : Ctl K n}
    (hctl : s'.ctl = Function.update s.ctl p c)
    (hchan : ∀ q, q ≠ p → s'.chan q = s.chan q)
    (hstate : ∀ q, q ≠ p → s'.state q = .sleeping → s.state q = .sleeping)
    (hpc : ∀ pc ch k, c = .sleep pc ch k → pc = .setState ∨ pc = .sched ∨ pc = .off →
      s'.chan p = some ch)
    (hps : s'.state p = .sleeping → ∃ pc ch k, c = .sleep pc ch k ∧ (pc = .sched ∨ pc = .off)) :
    Placed s' := by
  constructor
  · intro q pc ch k hq hat
    rw [hctl] at hq
    by_cases hqp : q = p
    · subst hqp
      rw [Function.update_self] at hq
      exact hpc pc ch k hq hat
    · rw [Function.update_of_ne hqp] at hq
      rw [hchan q hqp]
      exact h.chan q pc ch k hq hat
  · intro q hq
    rw [hctl]
    by_cases hqp : q = p
    · subst hqp
      rw [Function.update_self]
      exact hps hq
    · rw [Function.update_of_ne hqp]
      exact h.state q (hstate q hqp hq)

theorem Placed.awake {s : St σ K n} (h : Placed s) {p : Fin n}
    (hp : ∀ pc c k, s.ctl p = .sleep pc c k → pc ≠ .sched ∧ pc ≠ .off) : s.state p ≠ .sleeping := by
  intro hs
  obtain ⟨pc,c,k,hk,hat⟩ := h.state p hs
  rcases hat with rfl | rfl
  · exact (hp _ c k hk).1 rfl
  · exact (hp _ c k hk).2 rfl

theorem Placed.pass {s s' : St σ K n} (h : Placed s) {p : Fin n} {x y : Ctl K n}
    (hp : s.ctl p = x) (hctl : s'.ctl = Function.update s.ctl p y)
    (hchan : ∀ q, q ≠ p → s'.chan q = s.chan q) (hstate : s'.state = s.state)
    (hx : ∀ pc c k, x = .sleep pc c k → pc ≠ .sched ∧ pc ≠ .off)
    (hy : ∀ pc c k, y = .sleep pc c k → pc = .setState ∨ pc = .sched ∨ pc = .off →
      s'.chan p = some c) : Placed s' := by
  refine h.goto hctl hchan (fun q _ hs => by rwa [hstate] at hs) hy (fun hs => ?_)
  rw [hstate] at hs
  exact absurd hs (h.awake (by rwa [hp]))

theorem wake_state (s : St σ K n) (c : ℕ) (q r : Fin n) :
    (s.wake c q).state r = if r = q ∧ s.state q = .sleeping ∧ s.chan q = some c then .runnable
      else s.state r := by
  rw [St.wake]
  by_cases hq : s.state q = .sleeping ∧ s.chan q = some c
  · by_cases hr : r = q
    · subst hr
      simp [hq]
    · simp [hq, hr]
  · simp [hq]

theorem Placed.step {s s' : St σ K n} (h : Placed s) (hs : Step C s s') : Placed s' := by
  cases hs with
  | acquire hp hm hl => exact h.pass hp rfl (fun _ _ => rfl) rfl (by simp) (by simp)
  | release hp hm => exact h.pass hp rfl (fun _ _ => rfl) rfl (by simp) (by simp)
  | work hp hm => exact h.pass hp rfl (fun _ _ => rfl) rfl (by simp) (by simp)
  | sleep hp hm => exact h.pass hp rfl (fun _ _ => rfl) rfl (by simp) (by simp)
  | wakeup hp hm => exact h.pass hp rfl (fun _ _ => rfl) rfl (by simp) (by simp)
  | sleepPt hp hf => exact h.pass hp rfl (fun _ _ => rfl) rfl (by simp) (by simp)
  | sleepLk hp => exact h.pass hp rfl (fun _ _ => rfl) rfl (by simp) (by simp)
  | sleepChan hp =>
    exact h.pass hp rfl (fun q hq => Function.update_of_ne hq _ _) rfl (by simp) (by simp)
  | sleepState hp =>
    exact h.goto rfl (fun _ _ => rfl) (fun q hq hs => by simpa [hq] using hs)
      (by simpa [St.goto] using h.chan _ _ _ _ hp (Or.inl rfl)) (by simp)
  | sched hp =>
    exact h.goto rfl (fun _ _ => rfl) (fun _ _ => id)
      (by simpa [St.goto] using h.chan _ _ _ _ hp (Or.inr (Or.inl rfl))) (by simp)
  | schedAcquire hf => exact ⟨h.chan,h.state⟩
  | schedRelease hf => exact ⟨h.chan,h.state⟩
  | resume hp hr hf =>
    exact h.goto rfl (fun _ _ => rfl) (fun q hq hs => by simpa [hq] using hs) (by simp) (by simp)
  | clearChan hp =>
    exact h.pass hp rfl (fun q hq => Function.update_of_ne hq _ _) rfl (by simp) (by simp)
  | sleepRelease hp => exact h.pass hp rfl (fun _ _ => rfl) rfl (by simp) (by simp)
  | sleepReturn hp hl => exact h.pass hp rfl (fun _ _ => rfl) rfl (by simp) (by simp)
  | wakeupPt hp hf => exact h.pass hp rfl (fun _ _ => rfl) rfl (by simp) (by simp)
  | @wakeupScan p q k c todo hp =>
    obtain ⟨hctl,-,-,-,hchan⟩ := wake_ctl s c q
    have hsl : ∀ r, (s.wake c q).state r = .sleeping → s.state r = .sleeping := by
      intro r hr
      rw [wake_state] at hr
      split_ifs at hr
      exact hr
    refine h.goto (p := p) (c := .wakeup (some todo) c k) (by rw [St.goto, hctl])
      (fun r _ => by rw [St.goto, hchan]) (fun r _ => hsl r) (by simp)
      (fun hs => absurd (hsl p hs) (h.awake (by simp [hp])))
  | wakeupReturn hp => exact h.pass hp rfl (fun _ _ => rfl) rfl (by simp) (by simp)

theorem Reach.placed {s₀ s : St σ K n} (h : Reach C s₀ s) (h₀ : Start C s₀) : Placed s := by
  induction h with
  | start => exact h₀.placed
  | step _ hs ih => exact ih.step hs

/-! ## No lost wakeup

`owes` marks the points of a producer that has made the condition true and has
yet to call `wakeup`. A process is due to wake `q` as long as it owes the call or
is inside it with the slot of `q` still to be scanned.
-/

def Due (owes : K → Prop) (c : ℕ) : Ctl K n → Fin n → Prop
  | .run k, _ => owes k
  | .sleep _ _ k, _ => owes k
  | .wakeup none c' k, _ => c' = c ∨ owes k
  | .wakeup (some todo) c' k, q => (c' = c ∧ q ∈ todo) ∨ owes k

/-- A producer's wakeup is pending: still to be called, or not yet complete. -/
def Pending (owes : K → Prop) (c : ℕ) : Ctl K n → Prop
  | .run k => owes k
  | .sleep _ _ k => owes k
  | .wakeup _ c' k => c' = c ∨ owes k

theorem Due.pending {owes : K → Prop} {c : ℕ} {x : Ctl K n} {q : Fin n} (h : Due owes c x q) :
    Pending owes c x := by
  cases x with
  | run k => exact h
  | sleep pc c' k => exact h
  | wakeup todo c' k =>
    cases todo with
    | none => exact h
    | some todo => exact h.imp And.left id

/-- `q` has dropped `lk` inside `sleep(c, lk)` and nobody has woken it. -/
def Lulled (s : St σ K n) (c : ℕ) (q : Fin n) : Prop :=
  ∃ pc k, s.ctl q = .sleep pc c k ∧ (pc = .setChan ∨ pc = .setState ∨
    (pc = .sched ∨ pc = .off) ∧ s.state q = .sleeping)

/-- The contract of a client on channel `c`, in the states that meet `I`: it
sleeps only while the condition is false, makes it true only under `lk`, and then
owes a wakeup until it calls it. -/
structure Contract (C : Client σ K) (I : St σ K n → Prop) (c : ℕ) (cond : σ → Prop)
    (owes : K → Prop) : Prop where
  sleeps : ∀ {s : St σ K n} {p k k' d}, I s → s.ctl p = .run k →
    C.move (.sleep c) k s.data k' d → ¬ cond s.data
  raises : ∀ {s : St σ K n} {p k k' d}, I s → s.ctl p = .run k →
    C.move .work k s.data k' d → cond d → ¬ cond s.data → C.holds k = true ∧ owes k'
  keeps : ∀ {m k d k' d'}, C.move m k d k' d' → m ≠ .wakeup c → owes k → owes k'

structure Watched (s : St σ K n) (c : ℕ) (cond : σ → Prop) (owes : K → Prop) : Prop where
  early : ∀ q pc k, s.ctl q = .sleep pc c k → pc = .acquirePt ∨ pc = .releaseLk → ¬ cond s.data
  late : ∀ q, Lulled s c q → cond s.data → ∃ p, Due owes c (s.ctl p) q

theorem Start.watched {s : St σ K n} (h : Start C s) (c : ℕ) (cond : σ → Prop) (owes : K → Prop) :
    Watched s c cond owes := by
  constructor
  · intro q pc k hq _
    obtain ⟨k',hk,-⟩ := h.ctl q
    rw [hk] at hq
    cases hq
  · rintro q ⟨pc,k,hq,-⟩
    obtain ⟨k',hk,-⟩ := h.ctl q
    rw [hk] at hq
    cases hq

variable {c : ℕ} {cond : σ → Prop} {owes : K → Prop}

/-- A step that does not touch the data: the mover was not early in `sleep` unless it
was before, was lulled before if it is now, and stays due to whoever is lulled. -/
theorem Watched.goto {s s' : St σ K n} (h : Watched s c cond owes) {p : Fin n} {x : Ctl K n}
    (hctl : s'.ctl = Function.update s.ctl p x) (hdata : s'.data = s.data)
    (hearly : ∀ pc k, x = .sleep pc c k → pc = .acquirePt ∨ pc = .releaseLk → ¬ cond s.data)
    (hlull : ∀ q, Lulled s' c q → cond s.data → Lulled s c q)
    (hdue : ∀ q, Lulled s' c q → Due owes c (s.ctl p) q → Due owes c x q) :
    Watched s' c cond owes := by
  constructor
  · intro q pc k hq hat
    rw [hctl] at hq
    rw [hdata]
    by_cases hqp : q = p
    · subst hqp
      rw [Function.update_self] at hq
      exact hearly pc k hq hat
    · rw [Function.update_of_ne hqp] at hq
      exact h.early q pc k hq hat
  · intro q hl hc
    rw [hdata] at hc
    obtain ⟨r,hr⟩ := h.late q (hlull q hl hc) hc
    rw [hctl]
    by_cases hrp : r = p
    · subst hrp
      exact ⟨r,by rw [Function.update_self]; exact hdue q hl hr⟩
    · exact ⟨r,by rwa [Function.update_of_ne hrp]⟩

theorem Lulled.goto {s s' : St σ K n} {p q : Fin n} {x : Ctl K n}
    (hctl : s'.ctl = Function.update s.ctl p x)
    (hstate : ∀ q, q ≠ p → s'.state q = .sleeping → s.state q = .sleeping)
    (hx : Lulled s' c p → Lulled s c p) (h : Lulled s' c q) : Lulled s c q := by
  by_cases hqp : q = p
  · subst hqp
    exact hx h
  · obtain ⟨pc,k,hq,hat⟩ := h
    rw [hctl, Function.update_of_ne hqp] at hq
    refine ⟨pc,k,hq,?_⟩
    rcases hat with rfl | rfl | ⟨hat,hs⟩
    · exact Or.inl rfl
    · exact Or.inr (Or.inl rfl)
    · exact Or.inr (Or.inr ⟨hat,hstate q hqp hs⟩)

theorem Lulled.stage {s : St σ K n} {q : Fin n} {pc : SleepPoint} {c' : ℕ} {k : K}
    (h : Lulled s c q) (hq : s.ctl q = .sleep pc c' k) :
    c' = c ∧ (pc = .setChan ∨ pc = .setState ∨ (pc = .sched ∨ pc = .off) ∧ s.state q = .sleeping) := by
  obtain ⟨pc',k',hq',hat⟩ := h
  rw [hq] at hq'
  cases hq'
  exact ⟨rfl,hat⟩

theorem Lulled.asleep {s : St σ K n} {q : Fin n} (h : Lulled s c q) :
    ∃ pc k, s.ctl q = .sleep pc c k := by
  obtain ⟨pc,k,hq,-⟩ := h
  exact ⟨pc,k,hq⟩

theorem Watched.pass {s s' : St σ K n} (h : Watched s c cond owes) {p : Fin n} {x : Ctl K n}
    (hctl : s'.ctl = Function.update s.ctl p x) (hdata : s'.data = s.data)
    (hstate : ∀ q, q ≠ p → s'.state q = .sleeping → s.state q = .sleeping)
    (hx : ∀ pc c' k, x ≠ .sleep pc c' k)
    (hdue : ∀ q, Lulled s' c q → Due owes c (s.ctl p) q → Due owes c x q) :
    Watched s' c cond owes := by
  refine h.goto hctl hdata (fun pc k heq => absurd heq (hx pc c k)) (fun q hl _ => ?_) hdue
  refine Lulled.goto hctl hstate (fun hp => ?_) hl
  obtain ⟨pc,k,hk⟩ := hp.asleep
  rw [hctl, Function.update_self] at hk
  exact absurd hk (hx pc c k)

theorem Watched.slide {s s' : St σ K n} (h : Watched s c cond owes) {p : Fin n}
    {pc pc' : SleepPoint} {c' : ℕ} {k : K} (hp : s.ctl p = .sleep pc c' k)
    (hctl : s'.ctl = Function.update s.ctl p (.sleep pc' c' k)) (hdata : s'.data = s.data)
    (hstate : ∀ q, q ≠ p → s'.state q = .sleeping → s.state q = .sleeping)
    (hearly : c' = c → pc' = .acquirePt ∨ pc' = .releaseLk → ¬ cond s.data)
    (hlull : Lulled s' c p → c' = c → cond s.data → Lulled s c p) : Watched s' c cond owes := by
  refine h.goto hctl hdata ?_ (fun q hl hc => ?_) (fun q _ hd => by rwa [hp] at hd)
  · rintro pc'' k'' ⟨⟩ hat
    exact hearly rfl hat
  · refine Lulled.goto hctl hstate (fun hlp => hlull hlp ?_ hc) hl
    exact (hlp.stage (by rw [hctl, Function.update_self])).1

/-- The condition may become true here, but then under `lk`, which nobody early in
`sleep` can share, and with a wakeup owed to everyone who is lulled. -/
theorem Watched.work {I : St σ K n → Prop} {s : St σ K n} {p : Fin n} {k k' : K} {d : σ}
    (h : Watched s c cond owes) (hk : Contract C I c cond owes) (hI : I s) (hl : Locked C s)
    (hp : s.ctl p = .run k) (hm : C.move .work k s.data k' d) :
    Watched { s.goto p (.run k') with data := d } c cond owes := by
  have hself : ∀ {q pc c''} {k'' : K}, (s.goto p (.run k')).ctl q = .sleep pc c'' k'' →
      q ≠ p ∧ s.ctl q = .sleep pc c'' k'' := by
    intro q pc c'' k'' hq
    by_cases hqp : q = p
    · subst hqp
      simp [St.goto] at hq
    · simp only [St.goto, Function.update_of_ne hqp] at hq
      exact ⟨hqp,hq⟩
  constructor
  · intro q pc k'' hq hat hcond
    obtain ⟨hqp,hq⟩ := hself hq
    obtain ⟨hh,-⟩ := hk.raises hI hp hm hcond (h.early q pc k'' hq hat)
    apply hqp
    apply hl.lk.unique (Option.some_injective _)
    · rw [hq]
      rcases hat with rfl | rfl <;> trivial
    · rwa [hp]
  · rintro q ⟨pc,k'',hq,hat⟩ hcond
    obtain ⟨hqp,hq⟩ := hself hq
    by_cases hold : cond s.data
    · obtain ⟨r,hr⟩ := h.late q ⟨pc,k'',hq,hat⟩ hold
      by_cases hrp : r = p
      · subst hrp
        rw [hp] at hr
        exact ⟨r,by simpa [St.goto, Due] using hk.keeps hm (by simp) hr⟩
      · exact ⟨r,by simpa [St.goto, hrp] using hr⟩
    · exact ⟨p,by simpa [St.goto, Due] using (hk.raises hI hp hm hcond hold).2⟩

/-- The scan passes the slot of `q`: a lulled `q` past its stores is woken, and an
earlier one would hold `ptable.lock` together with the scanning process. -/
theorem Watched.scan {s : St σ K n} {p q : Fin n} {k : K} {c' : ℕ} {todo : List (Fin n)}
    (h : Watched s c cond owes) (hl : Locked C s) (hplaced : Placed s)
    (hp : s.ctl p = .wakeup (some (q::todo)) c' k) :
    Watched ((s.wake c' q).goto p (.wakeup (some todo) c' k)) c cond owes := by
  obtain ⟨hctl,hdata,-,-,-⟩ := wake_ctl s c' q
  refine h.pass (by rw [St.goto, hctl]) hdata (fun r _ hr => ?_) (by simp) (fun r hlr hd => ?_)
  · rw [St.goto, wake_state] at hr
    split_ifs at hr
    exact hr
  · rw [hp] at hd
    rcases hd with ⟨rfl,hmem⟩ | hd
    · refine Or.inl ⟨rfl,(List.mem_cons.mp hmem).resolve_left ?_⟩
      rintro rfl
      obtain ⟨pc,k'',hr,hat⟩ := hlr
      have hrp : r ≠ p := by
        rintro rfl
        simp [St.goto] at hr
      rw [St.goto, hctl] at hr
      simp only [Function.update_of_ne hrp] at hr
      have hpt : ∀ {x : Ctl K n}, s.ctl r = x → x.hasPt → False := by
        rintro x rfl hx
        exact hrp (hl.pt.unique proc_injective hx (by rw [hp]; rfl))
      rcases hat with rfl | rfl | ⟨hat,hsl⟩
      · exact hpt hr trivial
      · exact hpt hr trivial
      · have hch := hplaced.chan r pc c' k'' hr (by tauto)
        rw [St.goto, wake_state] at hsl
        split_ifs at hsl with hw
        exact hw ⟨rfl,hsl,hch⟩
    · exact Or.inr hd

theorem Watched.step {I : St σ K n → Prop} {s s' : St σ K n} (h : Watched s c cond owes)
    (hk : Contract C I c cond owes) (hI : I s) (hl : Locked C s) (hplaced : Placed s)
    (hs : Step C s s') : Watched s' c cond owes := by
  cases hs with
  | @acquire p k k' d hp hm hlk =>
    refine h.pass rfl rfl (fun _ _ => id) (by simp) (fun q _ hd => ?_)
    rw [hp] at hd
    exact hk.keeps hm (by simp) hd
  | @release p k k' d hp hm =>
    refine h.pass rfl rfl (fun _ _ => id) (by simp) (fun q _ hd => ?_)
    rw [hp] at hd
    exact hk.keeps hm (by simp) hd
  | work hp hm => exact h.work hk hI hl hp hm
  | @sleep p k k' c' d hp hm =>
    refine h.goto rfl rfl ?_ (fun q hq _ => ?_) (fun q _ hd => ?_)
    · rintro pc k'' ⟨⟩ -
      exact hk.sleeps hI hp hm
    · have hctl : (s.goto p (.sleep .acquirePt c' k')).ctl =
          Function.update s.ctl p (.sleep .acquirePt c' k') := rfl
      refine Lulled.goto hctl (fun _ _ => id) (fun hlp => ?_) hq
      simpa using hlp.stage (Function.update_self _ _ _)
    · rw [hp] at hd
      exact hk.keeps hm (by simp) hd
  | sleepPt hp hf =>
    exact h.slide hp rfl rfl (fun _ _ => id) (fun hc _ => h.early _ _ _ (hc ▸ hp) (Or.inl rfl))
      (fun hl => by simpa using hl.stage (Function.update_self _ _ _))
  | sleepLk hp =>
    refine h.slide hp rfl rfl (fun _ _ => id) (by simp) (fun _ hc hcond => ?_)
    exact absurd hcond (h.early _ _ _ (hc ▸ hp) (Or.inr rfl))
  | sleepChan hp =>
    exact h.slide hp rfl rfl (fun _ _ => id) (by simp)
      (fun _ hc _ => ⟨_,_,hc ▸ hp,Or.inl rfl⟩)
  | sleepState hp =>
    exact h.slide hp rfl rfl (fun q hq hs => by simpa [hq] using hs) (by simp)
      (fun _ hc _ => ⟨_,_,hc ▸ hp,Or.inr (Or.inl rfl)⟩)
  | sched hp =>
    refine h.slide hp rfl rfl (fun _ _ => id) (by simp) (fun hl hc _ => ?_)
    obtain ⟨-,hat⟩ := hl.stage (Function.update_self _ _ _)
    exact ⟨_,_,hc ▸ hp,Or.inr (Or.inr ⟨Or.inl rfl,by simpa [St.goto] using hat⟩)⟩
  | schedAcquire hf => exact ⟨h.early,h.late⟩
  | schedRelease hf => exact ⟨h.early,h.late⟩
  | resume hp hr hf =>
    exact h.slide hp rfl rfl (fun q hq hs => by simpa [hq] using hs) (by simp)
      (fun hl => by simpa using hl.stage (Function.update_self _ _ _))
  | clearChan hp =>
    exact h.slide hp rfl rfl (fun _ _ => id) (by simp)
      (fun hl => by simpa using hl.stage (Function.update_self _ _ _))
  | sleepRelease hp =>
    exact h.slide hp rfl rfl (fun _ _ => id) (by simp)
      (fun hl => by simpa using hl.stage (Function.update_self _ _ _))
  | sleepReturn hp hlk =>
    refine h.pass rfl rfl (fun _ _ => id) (by simp) (fun q _ hd => ?_)
    rw [hp] at hd
    exact hd
  | @wakeup p k k' c' d hp hm =>
    refine h.pass rfl rfl (fun _ _ => id) (by simp) (fun q _ hd => ?_)
    rw [hp] at hd
    by_cases hc : c' = c
    · exact Or.inl hc
    · exact Or.inr (hk.keeps hm (by simpa using hc) hd)
  | wakeupPt hp hf =>
    refine h.pass rfl rfl (fun _ _ => id) (by simp) (fun q _ hd => ?_)
    rw [hp] at hd
    exact hd.imp (fun hc => ⟨hc,List.mem_finRange q⟩) id
  | wakeupScan hp => exact h.scan hl hplaced hp
  | wakeupReturn hp =>
    refine h.pass rfl rfl (fun _ _ => id) (by simp) (fun q _ hd => ?_)
    rw [hp] at hd
    exact hd.resolve_left (by simp)

theorem Watched.pending {s : St σ K n} (h : Watched s c cond owes) (hplaced : Placed s) {q : Fin n}
    (hs : s.state q = .sleeping) (hch : s.chan q = some c) (hc : cond s.data) :
    ∃ p, Pending owes c (s.ctl p) := by
  obtain ⟨pc,c',k,hq,hat⟩ := hplaced.state q hs
  have hc' := hplaced.chan q pc c' k hq (Or.inr hat)
  obtain rfl : c' = c := by simpa using hc'.symm.trans hch
  obtain ⟨p,hd⟩ := h.late q ⟨pc,k,hq,Or.inr (Or.inr ⟨hat,hs⟩)⟩ hc
  exact ⟨p,hd.pending⟩

theorem Reach.watched {I : St σ K n → Prop} {s₀ s : St σ K n} (h : Reach C s₀ s)
    (h₀ : Start C s₀) (hI : ∀ s, Reach C s₀ s → I s) (hk : Contract C I c cond owes) :
    Watched s c cond owes := by
  induction h with
  | start => exact h₀.watched c cond owes
  | step hr hs ih => exact ih.step hk (hI _ hr) (hr.locked h₀) (hr.placed h₀) hs

theorem Reach.none_asleep {I : St σ K n → Prop} {s₀ s : St σ K n} (h : Reach C s₀ s)
    (h₀ : Start C s₀) (hI : ∀ s, Reach C s₀ s → I s) (hk : Contract C I c cond owes)
    (hc : cond s.data) (hp : ∀ p, ¬ Pending owes c (s.ctl p)) (q : Fin n) :
    ¬ (s.state q = .sleeping ∧ s.chan q = some c) := by
  rintro ⟨hs,hch⟩
  obtain ⟨p,hd⟩ := (h.watched h₀ hI hk).pending (h.placed h₀) hs hch hc
  exact hp p hd

/-- No lost wakeup, for any client of `sleep` and `wakeup`, any number of processes
and any interleaving: once the condition is true and no wakeup of a producer is
pending, nobody is SLEEPING on the channel. -/
theorem no_lost_wakeup (C : Client σ K) (c : ℕ) (cond : σ → Prop) (owes : K → Prop)
    (consumer : ∀ k d k' d', C.move (.sleep c) k d k' d' → ¬ cond d)
    (producer : ∀ k d k' d', C.move .work k d k' d' → cond d' → ¬ cond d →
      C.holds k = true ∧ owes k')
    (pending : ∀ m k d k' d', C.move m k d k' d' → m ≠ .wakeup c → owes k → owes k')
    {s₀ s : St σ K n} (h₀ : Start C s₀) (h : Reach C s₀ s) (hc : cond s.data)
    (hdone : ∀ p, ¬ Pending owes c (s.ctl p)) (q : Fin n) :
    ¬ (s.state q = .sleeping ∧ s.chan q = some c) :=
  h.none_asleep h₀ (fun _ _ => trivial)
    ⟨fun _ _ => consumer _ _ _ _,fun _ _ => producer _ _ _ _,fun hm => pending _ _ _ _ _ hm⟩ hc
    hdone q

/-- The smallest client: a consumer that waits for a flag and a producer that sets it
and wakes channel 7 after releasing the lock. -/
inductive GatePoint where
  | enter
  | test
  | passed
  | produce
  | set
  | owing
  | unlocked
  | done
  deriving DecidableEq

def gateHolds : GatePoint → Bool
  | .test => true
  | .passed => true
  | .set => true
  | .owing => true
  | _ => false

inductive GateMove : Move → GatePoint → Bool → GatePoint → Bool → Prop where
  | enter (d : Bool) : GateMove .acquire .enter d .test d
  | wait : GateMove (.sleep 7) .test false .test false
  | take : GateMove .work .test true .passed false
  | leave (d : Bool) : GateMove .release .passed d .done d
  | produce (d : Bool) : GateMove .acquire .produce d .set d
  | set (d : Bool) : GateMove .work .set d .owing true
  | unlock (d : Bool) : GateMove .release .owing d .unlocked d
  | wake (d : Bool) : GateMove (.wakeup 7) .unlocked d .done d

def gate : Client Bool GatePoint where
  holds := gateHolds
  move := GateMove
  acquire_ok h := by cases h <;> simp [gateHolds]
  release_ok h := by cases h <;> simp [gateHolds]
  work_ok h := by cases h <;> simp [gateHolds]
  sleep_ok h := by cases h; simp [gateHolds]
  wakeup_ok h := by cases h; simp [gateHolds]

def gateOwes (k : GatePoint) : Prop := k = .owing ∨ k = .unlocked

def gateStart : St Bool GatePoint 2 :=
  ⟨false,none,.free,fun p => .run (if p = 0 then .enter else .produce),fun _ => .running,fun _ => none⟩

theorem gate_run : ∃ s : St Bool GatePoint 2, Reach gate gateStart s ∧ s.data = true ∧
    s.ctl 0 = .sleep .off 7 .test ∧ s.ctl 1 = .run .done := by
  have hr : Reach gate gateStart gateStart := Reach.start
  replace hr := hr.step (Step.acquire (p := 0) rfl (GateMove.enter _) rfl)
  replace hr := hr.step (Step.sleep (p := 0) rfl GateMove.wait)
  replace hr := hr.step (Step.sleepPt (p := 0) rfl rfl)
  replace hr := hr.step (Step.sleepLk (p := 0) rfl)
  replace hr := hr.step (Step.sleepChan (p := 0) rfl)
  replace hr := hr.step (Step.sleepState (p := 0) rfl)
  replace hr := hr.step (Step.sched (p := 0) rfl)
  replace hr := hr.step (Step.schedRelease rfl)
  replace hr := hr.step (Step.acquire (p := 1) rfl (GateMove.produce _) rfl)
  replace hr := hr.step (Step.work (p := 1) rfl (GateMove.set _))
  replace hr := hr.step (Step.release (p := 1) rfl (GateMove.unlock _))
  replace hr := hr.step (Step.wakeup (p := 1) rfl (GateMove.wake _))
  replace hr := hr.step (Step.wakeupPt (p := 1) rfl rfl)
  replace hr := hr.step (Step.wakeupScan (p := 1) (q := 0) rfl)
  replace hr := hr.step (Step.wakeupScan (p := 1) (q := 1) rfl)
  replace hr := hr.step (Step.wakeupReturn (p := 1) rfl)
  exact ⟨_,hr,rfl,rfl,rfl⟩

theorem gate_start : Start gate gateStart :=
  ⟨rfl,rfl,fun p => by fin_cases p <;> exact ⟨_,rfl,rfl⟩,fun _ => rfl⟩

theorem no_lost_wakeup_gate : ∃ s : St Bool GatePoint 2, Reach gate gateStart s ∧ s.data = true ∧
    ¬ (s.state 0 = .sleeping ∧ s.chan 0 = some 7) := by
  obtain ⟨s,hr,hd,h0,h1⟩ := gate_run
  refine ⟨s,hr,hd,no_lost_wakeup gate 7 (· = true) gateOwes ?_ ?_ ?_ gate_start hr hd ?_ 0⟩
  · rintro _ _ _ _ ⟨⟩
    simp
  · rintro _ _ _ _ ⟨⟩ <;> simp [gate, gateHolds, gateOwes]
  · rintro _ _ _ _ _ ⟨⟩ <;> simp [gateOwes]
  · intro p
    fin_cases p
    · simp [h0, Pending, gateOwes]
    · simp [h1, Pending, gateOwes]

end Xv6.Sleep
