import Xv6.Fs.BcacheShape

/-!
# The steps of `bread` and `brelse` keep the list, the counts and the locks

Each step is an instance of `Shape.change`; the scans of `bget` are the searches through
the list of buffers, forward for the block and backward for an unused buffer.
-/

set_option autoImplicit false

namespace Xv6.Bcache
open Xv6.Links Xv6.Log Xv6.Refs

variable {n dev : ℕ} {s s' : St n} {p : Fin n} {b : Fin NBUF} {f : Buf n}

theorem Shape.goto (hi : Shape dev s) {c : Call} (ho : (s.proc p).call.pending = none)
    (hl : ∀ x b, (s.proc p).call ≠ .load x b) (hc : c.pending = none) (hw : ∀ x b, c ≠ .wait x b)
    (hn : ∀ x b, c ≠ .load x b) : Shape dev (s.goto p c) := by
  have hch : Change s (s.goto p c) p { s.proc p with call := c } buf0 (s.buf buf0) :=
    ⟨rfl,(Function.update_eq_self buf0 s.buf).symm,Or.inl rfl,Or.inl ⟨rfl,rfl⟩⟩
  refine hi.change hch hi.links (Or.inr ⟨rfl,rfl⟩) ?_ (hi.held p) ?_ ?_ (hi.nodup p) ?_
  · intro b
    simp [ho, hc, St.goto, St.setProc]
  · intro x b h
    exact absurd h (hn x b)
  · intro b hb
    rcases hi.owner b p hb with h | ⟨x,h⟩
    · exact Or.inl h
    · exact absurd h (hl x b)
  · rintro x b (h | h | h)
    · exact hi.key p x b (Or.inl h)
    · exact absurd h (hw x b)
    · exact absurd h (hn x b)

/-! ### The scans of `bget` -/

theorem Shape.cached_eq (hi : Shape dev s) (x : ℕ) : ∃ xs : List (Fin NBUF),
    xs.Perm (List.finRange NBUF) ∧
    s.cached dev x = xs.find? (fun b => (s.buf b).dev = dev ∧ (s.buf b).blockno = x) := by
  obtain ⟨xs,hp,hl⟩ := hi.links
  refine ⟨xs,hp,walk_find _ hl.next ?_⟩
  rw [hp.length_eq, List.length_finRange]
  exact Nat.lt_succ_self NBUF

theorem Shape.unused_eq (hi : Shape dev s) : ∃ xs : List (Fin NBUF),
    xs.Perm (List.finRange NBUF) ∧
    s.unused = xs.find? (fun b => (s.buf b).refcnt = 0 ∧ (s.buf b).dirty = false) := by
  obtain ⟨xs,hp,hl⟩ := hi.links
  refine ⟨xs.reverse,(List.reverse_perm xs).trans hp,walk_find _ hl.prev ?_⟩
  rw [List.length_reverse, hp.length_eq, List.length_finRange]
  exact Nat.lt_succ_self NBUF

theorem Shape.cached_some (hi : Shape dev s) {x : ℕ} (h : s.cached dev x = some b) :
    (s.buf b).dev = dev ∧ (s.buf b).blockno = x := by
  obtain ⟨xs,-,heq⟩ := hi.cached_eq x
  rw [heq] at h
  have htest := List.find?_some h
  exact of_decide_eq_true htest

theorem Shape.cached_none (hi : Shape dev s) {x : ℕ} (h : s.cached dev x = none) (c : Fin NBUF)
    (hd : (s.buf c).dev = dev) : (s.buf c).blockno ≠ x := by
  obtain ⟨xs,hp,heq⟩ := hi.cached_eq x
  have hc := List.find?_eq_none.mp (heq ▸ h) c (hp.mem_iff.mpr (List.mem_finRange c))
  intro hx
  exact hc (decide_eq_true ⟨hd,hx⟩)

theorem Shape.unused_some (hi : Shape dev s) (h : s.unused = some b) :
    (s.buf b).refcnt = 0 ∧ (s.buf b).dirty = false := by
  obtain ⟨xs,-,heq⟩ := hi.unused_eq
  rw [heq] at h
  have htest := List.find?_some h
  exact of_decide_eq_true htest

theorem Shape.unused_none (hi : Shape dev s) (h : s.unused = none) (c : Fin NBUF) :
    (s.buf c).refcnt ≠ 0 ∨ (s.buf c).dirty = true := by
  obtain ⟨xs,hp,heq⟩ := hi.unused_eq
  have hc := List.find?_eq_none.mp (heq ▸ h) c (hp.mem_iff.mpr (List.mem_finRange c))
  by_contra hn
  rw [not_or, not_not, Bool.not_eq_true] at hn
  exact hc (decide_eq_true hn)

/-! ### The steps of `bread` and `brelse` -/

theorem Shape.ask (hi : Shape dev s) {x : ℕ} (hp : (s.proc p).call = .get x) (hd : f.dev = dev)
    (hx : f.blockno = x) (hl : f.lock = (s.buf b).lock) (hr : f.refcnt = (s.buf b).refcnt+1)
    (hk : ((s.buf b).dev = dev ∧ (s.buf b).blockno = x) ∨
      ((s.buf b).refcnt = 0 ∧ ∀ c, (s.buf c).dev = dev → (s.buf c).blockno ≠ x)) :
    Shape dev ((s.setBuf b f).goto p (.wait x b)) := by
  have hch : Change s ((s.setBuf b f).goto p (.wait x b)) p { s.proc p with call := .wait x b } b f := by
    refine ⟨rfl,rfl,Or.inl hl,?_⟩
    rcases hk with ⟨h1,h2⟩ | ⟨h1,-⟩
    · exact Or.inl ⟨hd.trans h1.symm,hx.trans h2.symm⟩
    · exact Or.inr h1
  have hlock : ∀ c, ((Function.update s.buf b f) c).lock = (s.buf c).lock := by
    intro c
    by_cases hc : c = b
    · rw [hc, Function.update_self, hl]
    · rw [Function.update_of_ne hc]
  refine hi.change hch hi.links ?_ ?_ ?_ (fun _ _ h => nomatch h) ?_ (hi.nodup p) ?_
  · rcases hk with ⟨h1,h2⟩ | ⟨-,h2⟩
    · exact Or.inr ⟨hd.trans h1.symm,hx.trans h2.symm⟩
    · exact Or.inl ⟨hd,fun c _ hc => by rw [hx]; exact h2 c hc⟩
  · intro c
    have hb : lockBit ((Function.update s.buf b f) c) = lockBit (s.buf c) := by
      rw [lockBit, lockBit, hlock c]
    show ((Function.update s.buf b f) c).refcnt+_+_ = _+lockBit ((Function.update s.buf b f) c)+_
    rw [hb, hp]
    by_cases hc : c = b
    · subst hc
      simp [Call.pending, hr]
      omega
    · simp [Call.pending, Function.update_of_ne hc, Ne.symm hc]
  · intro y c h
    exact (hlock c).trans (hi.held p y c h)
  · intro c hc
    rcases hi.owner c p ((hlock c).symm.trans hc) with h | ⟨y,h⟩
    · exact Or.inl h
    · rw [hp] at h
      cases h
  · rintro y c (h | h | h)
    · exact hch.asked hi (Or.inl h)
    · cases h
      exact ⟨by rw [hch.at]; exact hd,by rw [hch.at]; exact hx⟩
    · cases h

theorem Shape.acquire (hi : Shape dev s) {x : ℕ} (hp : (s.proc p).call = .wait x b)
    (hl : (s.buf b).lock = none) :
    Shape dev ((s.setBuf b { s.buf b with lock := some p }).goto p (.load x b)) := by
  have hch : Change s ((s.setBuf b { s.buf b with lock := some p }).goto p (.load x b)) p
      { s.proc p with call := .load x b } b { s.buf b with lock := some p } :=
    ⟨rfl,rfl,Or.inr (Or.inl ⟨hl,rfl⟩),Or.inl ⟨rfl,rfl⟩⟩
  have hfree : ∀ y, (y,b) ∉ (s.proc p).held := by
    intro y h
    rw [hi.held p y b h] at hl
    cases hl
  refine hi.change hch hi.links (Or.inr ⟨rfl,rfl⟩) ?_ ?_ ?_ ?_ (hi.nodup p) ?_
  · intro c
    by_cases hc : c = b
    · subst hc
      rw [hch.at, hp]
      simp [Call.pending, lockBit, hl]
    · rw [hch.keeps hc, hp]
      simp [Call.pending, Ne.symm hc]
  · intro y c h
    by_cases hc : c = b
    · subst hc
      exact absurd h (hfree y)
    · rw [hch.keeps hc]
      exact hi.held p y c h
  · intro y c h
    cases h
    exact ⟨by rw [hch.at],hfree⟩
  · intro c h
    by_cases hc : c = b
    · subst hc
      exact Or.inr ⟨x,rfl⟩
    · rw [hch.keeps hc] at h
      rcases hi.owner c p h with h | ⟨y,h⟩
      · exact Or.inl h
      · rw [hp] at h
        cases h
  · rintro y c (h | h | h)
    · exact hch.asked hi (Or.inl h)
    · cases h
    · cases h
      exact hch.asked hi (Or.inr (Or.inl hp))

theorem Shape.take (hi : Shape dev s) {x : ℕ} (hp : (s.proc p).call = .load x b) :
    Shape dev (s.take p x b) := by
  have hch : Change s (s.take p x b) p
      { s.proc p with call := .none, held := (x,b)::(s.proc p).held } b (s.buf b) :=
    ⟨rfl,(Function.update_eq_self b s.buf).symm,Or.inl rfl,Or.inl ⟨rfl,rfl⟩⟩
  obtain ⟨hl,hfree⟩ := hi.load p x b hp
  refine hi.change hch hi.links (Or.inr ⟨rfl,rfl⟩) ?_ ?_ (fun _ _ h => nomatch h) ?_ ?_ ?_
  · intro c
    simp [hp, Call.pending, St.take, St.setProc]
  · intro y c h
    rcases List.mem_cons.mp h with h | h
    · cases h
      exact hl
    · exact hi.held p y c h
  · intro c h
    rcases hi.owner c p h with ⟨y,h⟩ | ⟨y,h⟩
    · exact Or.inl ⟨y,List.mem_cons_of_mem _ h⟩
    · rw [hp] at h
      cases h
      exact Or.inl ⟨x,List.mem_cons_self⟩
  · exact List.nodup_cons.mpr ⟨hfree x,hi.nodup p⟩
  · rintro y c (h | h | h)
    · rcases List.mem_cons.mp h with h | h
      · cases h
        exact hi.key p x b (Or.inr (Or.inr hp))
      · exact hi.key p y c (Or.inl h)
    · cases h
    · cases h

theorem Shape.held_one (hi : Shape dev s) {x y : ℕ} (hx : (x,b) ∈ (s.proc p).held)
    (hy : (y,b) ∈ (s.proc p).held) : x = y := by
  have h1 := (hi.key p x b (Or.inl hx)).2
  have h2 := (hi.key p y b (Or.inl hy)).2
  exact h1.symm.trans h2

theorem Shape.release (hi : Shape dev s) {x : ℕ} (hp : (s.proc p).call = .none)
    (hb : (x,b) ∈ (s.proc p).held) : Shape dev (s.release p x b) := by
  have hl := hi.held p x b hb
  have hch : Change s (s.release p x b) p
      { s.proc p with call := .drop b, held := (s.proc p).held.erase (x,b) } b
      { s.buf b with lock := none } := ⟨rfl,rfl,Or.inr (Or.inr ⟨hl,rfl⟩),Or.inl ⟨rfl,rfl⟩⟩
  have hgone : ∀ y, (y,b) ∉ (s.proc p).held.erase (x,b) := by
    intro y h
    rw [(hi.nodup p).mem_erase_iff] at h
    exact h.1 (by rw [hi.held_one hb h.2])
  refine hi.change hch hi.links (Or.inr ⟨rfl,rfl⟩) ?_ ?_ (fun _ _ h => nomatch h) ?_
    ((hi.nodup p).erase _) ?_
  · intro c
    by_cases hc : c = b
    · subst hc
      rw [hch.at, hp]
      simp [Call.pending, lockBit, hl]
    · rw [hch.keeps hc, hp]
      simp [Call.pending, Ne.symm hc]
  · intro y c h
    by_cases hc : c = b
    · subst hc
      exact absurd h (hgone y)
    · rw [hch.keeps hc]
      exact hi.held p y c (List.mem_of_mem_erase h)
  · intro c h
    by_cases hc : c = b
    · subst hc
      rw [hch.at] at h
      cases h
    · rw [hch.keeps hc] at h
      rcases hi.owner c p h with ⟨y,h⟩ | ⟨y,h⟩
      · refine Or.inl ⟨y,(hi.nodup p).mem_erase_iff.mpr ⟨?_,h⟩⟩
        intro heq
        exact hc (congrArg Prod.snd heq)
      · rw [hp] at h
        cases h
  · rintro y c (h | h | h)
    · exact hch.asked hi (Or.inl (List.mem_of_mem_erase h))
    · cases h
    · cases h

theorem Linked.relink {ptrs : Ptrs (Fin NBUF)} (b : Fin NBUF)
    (h : ∃ xs : List (Fin NBUF), xs.Perm (List.finRange NBUF) ∧ Linked ptrs xs) :
    ∃ xs : List (Fin NBUF), xs.Perm (List.finRange NBUF) ∧ Linked ((ptrs.unlink b).push b) xs := by
  obtain ⟨xs,hp,hl⟩ := h
  obtain ⟨l,r,rfl⟩ := List.append_of_mem (hp.mem_iff.mpr (List.mem_finRange b))
  exact ⟨b::(l++r),List.perm_middle.symm.trans hp,hl.toFront⟩

theorem St.drop_buf (s : St n) (b : Fin NBUF) :
    (s.drop b).buf = Function.update s.buf b { s.buf b with refcnt := (s.buf b).refcnt-1 } := by
  unfold St.drop
  dsimp only
  split <;> rfl

theorem St.drop_proc (s : St n) (b : Fin NBUF) : (s.drop b).proc = s.proc := by
  unfold St.drop
  dsimp only
  split <;> rfl

theorem Shape.drop (hi : Shape dev s) (hp : (s.proc p).call = .drop b) :
    Shape dev ((s.drop b).goto p .none) := by
  have hch : Change s ((s.drop b).goto p .none) p { s.proc p with call := .none } b
      { s.buf b with refcnt := (s.buf b).refcnt-1 } := by
    refine ⟨?_,s.drop_buf b,Or.inl rfl,Or.inl ⟨rfl,rfl⟩⟩
    show Function.update (s.drop b).proc p { (s.drop b).proc p with call := .none } = _
    rw [s.drop_proc b]
  have hlock : ∀ c, (((s.drop b).goto p .none).buf c).lock = (s.buf c).lock := by
    intro c
    by_cases hc : c = b
    · rw [hc, hch.at]
    · rw [hch.keeps hc]
  have hlinks : ∃ xs : List (Fin NBUF), xs.Perm (List.finRange NBUF) ∧
      Linked ((s.drop b).goto p .none).ptrs xs := by
    unfold St.drop
    dsimp only
    split
    · exact Linked.relink b hi.links
    · exact hi.links
  have hpos : 0 < (s.buf b).refcnt := by
    have hn : 0 < number (fun p => (s.proc p).call.pending) b :=
      number_pos.mpr ⟨p,by rw [hp]; rfl⟩
    have hc := hi.count b
    omega
  refine hi.change hch hlinks (Or.inr ⟨rfl,rfl⟩) ?_ ?_ (fun _ _ h => nomatch h) ?_ (hi.nodup p) ?_
  · intro c
    rw [lockBit, lockBit, hlock c, hp]
    by_cases hc : c = b
    · subst hc
      rw [hch.at]
      simp [Call.pending]
      omega
    · rw [hch.keeps hc]
      simp [Call.pending, Ne.symm hc]
  · intro y c h
    exact (hlock c).trans (hi.held p y c h)
  · intro c h
    rcases hi.owner c p ((hlock c).symm.trans h) with h | ⟨y,h⟩
    · exact Or.inl h
    · rw [hp] at h
      cases h
  · rintro y c (h | h | h)
    · exact hch.asked hi (Or.inl h)
    · cases h
    · cases h

theorem update_shape {f : Buf n} (h : f.shape = (s.buf b).shape) (c : Fin NBUF) :
    (Function.update s.buf b f c).shape = (s.buf c).shape := by
  by_cases hc : c = b
  · rw [hc, Function.update_self, h]
  · rw [Function.update_of_ne hc]

theorem update_proc {e : Proc} (h : e.shape = (s.proc p).shape) (q : Fin n) :
    (Function.update s.proc p e q).shape = (s.proc q).shape := by
  by_cases hq : q = p
  · rw [hq, Function.update_self, h]
  · rw [Function.update_of_ne hq]

theorem St.setProc_self (s : St n) (p : Fin n) (e : Proc) : (s.setProc p e).proc p = e := by
  simp [St.setProc]

theorem St.setProc_of_ne (s : St n) {p q : Fin n} (h : q ≠ p) (e : Proc) :
    (s.setProc p e).proc q = s.proc q := by
  simp [St.setProc, Function.update_of_ne h]

theorem St.advance_self (s : St n) (p : Fin n) (is : List Instr) :
    (s.advance p is).proc p = { s.proc p with prog := is } :=
  s.setProc_self p _

theorem Shape.advance (hi : Shape dev s) (is : List Instr) : Shape dev (s.advance p is) :=
  hi.congr rfl (fun _ => rfl) (update_proc rfl)

theorem St.iderw_buf (s : St n) (b : Fin NBUF) : ∃ f : Buf n,
    (s.iderw b).buf = Function.update s.buf b f ∧ f.shape = (s.buf b).shape := by
  unfold St.iderw
  split
  · exact ⟨_,rfl,rfl⟩
  · exact ⟨_,rfl,rfl⟩

theorem St.iderw_proc (s : St n) (b : Fin NBUF) : (s.iderw b).proc = s.proc := by
  unfold St.iderw
  split <;> rfl

theorem St.iderw_ptrs (s : St n) (b : Fin NBUF) : (s.iderw b).ptrs = s.ptrs := by
  unfold St.iderw
  split <;> rfl

theorem Shape.iderw (hi : Shape dev s) : Shape dev (s.iderw b) := by
  obtain ⟨f,hbuf,hf⟩ := s.iderw_buf b
  refine hi.congr (s.iderw_ptrs b) ?_ ?_
  · intro c
    rw [hbuf]
    exact update_shape hf c
  · intro q
    rw [s.iderw_proc b]

theorem Shape.bwrite (hi : Shape dev s) : Shape dev (s.bwrite b) := by
  have hd : Shape dev (s.setBuf b { s.buf b with dirty := true }) :=
    hi.congr rfl (update_shape rfl) fun _ => rfl
  exact hd.iderw

theorem Shape.effect (hi : Shape dev s) {a : Act} (hp : (s.proc p).call = .none)
    (h : Effect s p a s') : Shape dev s' := by
  cases h with
  | bread x => exact hi.goto (by rw [hp]; rfl) (by simp [hp]) rfl (by simp) (by simp)
  | bwrite hb => exact hi.bwrite
  | brelse hb ht => exact hi.release hp hb

theorem Shape.panics (hi : Shape dev s) {msg : String} (hp : (s.proc p).call.pending = none)
    (hl : ∀ x b, (s.proc p).call ≠ .load x b) : Shape dev (s.goto p (.panic msg)) :=
  hi.goto hp hl rfl (by simp) (by simp)

theorem Shape.step {L : Layout} {may : St n → ℕ → Prop} (hi : Shape dev s)
    (h : Step dev L may s p s') : Shape dev s' := by
  cases h with
  | beginOp => exact hi.congr rfl (fun _ => rfl) (update_proc rfl)
  | endOp => exact hi.congr rfl (fun _ => rfl) (update_proc rfl)
  | endLast => exact hi.congr rfl (fun _ => rfl) (update_proc rfl)
  | endPanic hu => exact hi.panics (by rw [hu.1]; rfl) (by simp [hu.1])
  | user hu h => exact hi.effect hu.1 h
  | cached hp hb =>
    obtain ⟨hd,hx⟩ := hi.cached_some hb
    exact hi.ask hp hd hx rfl rfl (Or.inl ⟨hd,hx⟩)
  | recycle hp hc hb =>
    have hr := (hi.unused_some hb).1
    refine hi.ask hp rfl rfl rfl ?_ (Or.inr ⟨hr,hi.cached_none hc⟩)
    rw [hr]
  | noBuffers hp => exact hi.panics (by rw [hp]; rfl) (by simp [hp])
  | acquire hp hl => exact hi.acquire hp hl
  | hit hp => exact hi.take hp
  | read hp => exact hi.iderw.take (by rw [s.iderw_proc]; exact hp)
  | drop hp => exact hi.drop hp
  | store => exact hi.congr rfl (update_shape rfl) fun _ => rfl
  | logWrite => exact hi.congr rfl (update_shape rfl) fun _ => rfl
  | tooBig hu => exact hi.panics (by rw [hu.1]; rfl) (by simp [hu.1])
  | act hc h =>
    refine (hi.advance _).effect ?_ h
    rw [s.advance_self]
    exact hc.1
  | copy => exact hi.congr rfl (update_shape rfl) (update_proc rfl)
  | header => exact hi.congr rfl (update_shape rfl) (update_proc rfl)
  | install => exact hi.congr rfl (update_shape rfl) (update_proc rfl)
  | clear => exact hi.congr rfl (fun _ => rfl) (update_proc rfl)
  | finish => exact hi.congr rfl (fun _ => rfl) (update_proc rfl)

theorem linked_foldl {ptrs : Ptrs (Fin NBUF)} {xs : List (Fin NBUF)} (ys : List (Fin NBUF))
    (h : Linked ptrs xs) (hn : ys.Nodup) (hd : ∀ y ∈ ys, y ∉ xs) :
    Linked (ys.foldl Ptrs.push ptrs) (ys.reverse++xs) := by
  induction ys generalizing ptrs xs with
  | nil => exact h
  | cons y ys ih =>
    rw [List.nodup_cons] at hn
    rw [List.foldl_cons, List.reverse_cons, List.append_assoc]
    refine ih (h.push (hd y List.mem_cons_self)) hn.2 ?_
    intro z hz hmem
    rcases List.mem_cons.mp hmem with rfl | hmem
    · exact hn.1 hz
    · exact hd z (List.mem_cons_of_mem y hz) hmem

theorem binit_linked : Linked binit (List.finRange NBUF).reverse := by
  have h : Linked (⟨fun _ => none,fun _ => none⟩ : Ptrs (Fin NBUF)) [] := ⟨List.nodup_nil,rfl,rfl⟩
  have hf := linked_foldl (List.finRange NBUF) h (List.nodup_finRange NBUF) (by simp)
  rwa [List.append_nil] at hf

theorem Start.shape (h : Start s) (hdev : dev ≠ 0) : Shape dev s where
  links := ⟨_,List.reverse_perm _,h.ptrs ▸ binit_linked⟩
  devs b := Or.inl (h.buf b).1
  one b _ hb := absurd ((h.buf b).1.symm.trans hb).symm hdev
  count b := by
    obtain ⟨-,hr,-,-,hl,-⟩ := h.buf b
    have hn : number (fun p => (s.proc p).call.pending) b = 0 := by
      by_contra hne
      obtain ⟨p,hp⟩ := number_pos.mp (Nat.pos_of_ne_zero hne)
      rw [h.proc p] at hp
      cases hp
    rw [hr, hn, lockBit, hl]
    rfl
  held p x b hb := by
    rw [h.proc p] at hb
    cases hb
  load p x b hb := by
    rw [h.proc p] at hb
    cases hb
  owner b p hb := by
    rw [(h.buf b).2.2.2.2.1] at hb
    cases hb
  nodup p := by
    rw [h.proc p]
    exact List.nodup_nil
  key p x b hb := by
    rw [h.proc p] at hb
    rcases hb with hb | hb | hb <;> cases hb

end Xv6.Bcache
