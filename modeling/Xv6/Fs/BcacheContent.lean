import Xv6.Fs.BcacheCommit

/-!
# The buffer cache is transparent

A valid buffer has what was last stored for its block, and a block whose buffer is gone
or clean has it on the disk: a buffer is only recycled when it is neither referenced nor
dirty. The commit moves contents from a block to the log and back, so it is transparent
as long as nobody stores to the block in between.
-/

set_option autoImplicit false

namespace Xv6.Bcache
open Xv6.Log

variable {n dev : ℕ} {L : Layout} {may : St n → ℕ → Prop} {s s' t : St n} {p : Fin n}
  {b : Fin NBUF} {f : Buf n}

structure Content (dev : ℕ) (s : St n) : Prop where
  same : ∀ b, (s.buf b).dev = dev → (s.buf b).valid = true →
    (s.buf b).data = s.mem (s.buf b).blockno
  held : ∀ p x b, (x,b) ∈ (s.proc p).held → (s.buf b).valid = true
  dirty : ∀ b, (s.buf b).dirty = true → (s.buf b).valid = true
  touched : ∀ b, (s.buf b).touched = true → ∃ p x, (x,b) ∈ (s.proc p).held
  disk : ∀ x, s.disk x = s.mem x ∨ ∃ b, (s.buf b).dev = dev ∧ (s.buf b).blockno = x ∧
    ((s.buf b).dirty = true ∨ (s.buf b).touched = true)

def Buf.content (e : Buf n) : ℕ × ℕ × Bool × Bool × Block × Bool :=
  (e.dev,e.blockno,e.valid,e.dirty,e.data,e.touched)

theorem Content.congr (h : Content dev s) (hdisk : s'.disk = s.disk) (hmem : s'.mem = s.mem)
    (hbuf : ∀ b, (s'.buf b).content = (s.buf b).content)
    (hheld : ∀ p, (s'.proc p).held = (s.proc p).held) : Content dev s' := by
  have hd : ∀ b, (s'.buf b).dev = (s.buf b).dev := fun b => congrArg Prod.fst (hbuf b)
  have hn : ∀ b, (s'.buf b).blockno = (s.buf b).blockno := fun b => congrArg (·.2.1) (hbuf b)
  have hv : ∀ b, (s'.buf b).valid = (s.buf b).valid := fun b => congrArg (·.2.2.1) (hbuf b)
  have hdt : ∀ b, (s'.buf b).dirty = (s.buf b).dirty := fun b => congrArg (·.2.2.2.1) (hbuf b)
  have hda : ∀ b, (s'.buf b).data = (s.buf b).data := fun b => congrArg (·.2.2.2.2.1) (hbuf b)
  have ht : ∀ b, (s'.buf b).touched = (s.buf b).touched :=
    fun b => congrArg (·.2.2.2.2.2) (hbuf b)
  refine ⟨?_,?_,?_,?_,?_⟩
  · simpa only [hd, hv, hda, hn, hmem] using h.same
  · simpa only [hheld, hv] using h.held
  · simpa only [hdt, hv] using h.dirty
  · simpa only [ht, hheld] using h.touched
  · simpa only [hdisk, hmem, hd, hn, hdt, ht] using h.disk

theorem update_content {f : Buf n} (h : f.content = (s.buf b).content) (c : Fin NBUF) :
    (Function.update s.buf b f c).content = (s.buf c).content := by
  by_cases hc : c = b
  · rw [hc, Function.update_self, h]
  · rw [Function.update_of_ne hc]

theorem setProc_held {e : Proc} (h : e.held = (s.proc p).held) (q : Fin n) :
    ((s.setProc p e).proc q).held = (s.proc q).held := by
  by_cases hq : q = p
  · subst hq
    rw [s.setProc_self, h]
  · rw [s.setProc_of_ne hq]

theorem Content.put (h : Content dev s) (hi : Shape dev s) {x : ℕ}
    (hx : (s.buf b).dev = dev ∧ (s.buf b).blockno = x)
    (hbuf : s'.buf = Function.update s.buf b f) (hheld : ∀ q, (s'.proc q).held = (s.proc q).held)
    (hkey : f.dev = dev ∧ f.blockno = x) (hval : f.valid = true ∧ f.data = s'.mem x)
    (ht : f.touched = true → ∃ p y, (y,b) ∈ (s.proc p).held)
    (hdisk : s'.disk x = s'.mem x ∨ f.dirty = true ∨ f.touched = true)
    (hother : ∀ y, y ≠ x → s'.disk y = s.disk y ∧ s'.mem y = s.mem y) : Content dev s' := by
  have hat : s'.buf b = f := by rw [hbuf, Function.update_self]
  have hne : ∀ c, c ≠ b → s'.buf c = s.buf c := fun c hc => by rw [hbuf, Function.update_of_ne hc]
  refine ⟨?_,?_,?_,?_,?_⟩
  · intro c hd hv
    by_cases hc : c = b
    · rw [hc, hat, hkey.2, hval.2]
    · rw [hne c hc] at hd hv ⊢
      have hcx : (s.buf c).blockno ≠ x := fun heq =>
        hc (hi.one c b hd hx.1 (heq.trans hx.2.symm))
      rw [(hother _ hcx).2]
      exact h.same c hd hv
  · intro q y c hq
    rw [hheld] at hq
    by_cases hc : c = b
    · rw [hc, hat, hval.1]
    · rw [hne c hc]
      exact h.held q y c hq
  · intro c hd
    by_cases hc : c = b
    · rw [hc, hat, hval.1]
    · rw [hne c hc] at hd ⊢
      exact h.dirty c hd
  · intro c hd
    simp only [hheld]
    by_cases hc : c = b
    · rw [hc, hat] at hd
      rw [hc]
      exact ht hd
    · rw [hne c hc] at hd
      exact h.touched c hd
  · intro y
    by_cases hy : y = x
    · subst hy
      rcases hdisk with hd | hd
      · exact Or.inl hd
      · exact Or.inr ⟨b,by rw [hat]; exact ⟨hkey.1,hkey.2,hd⟩⟩
    · rw [(hother y hy).1, (hother y hy).2]
      rcases h.disk y with hd | ⟨c,hd,hn,hdt⟩
      · exact Or.inl hd
      · have hc : c ≠ b := fun heq => hy (by rw [← hn, heq, hx.2])
        exact Or.inr ⟨c,by rw [hne c hc]; exact ⟨hd,hn,hdt⟩⟩

/-! ## The steps -/

theorem Content.read (h : Content dev s) (hi : Shape dev s) {x : ℕ}
    (hb : (x,b) ∈ (s.proc p).held) : (s.buf b).data = s.mem x := by
  obtain ⟨hd,hx⟩ := hi.key p x b (Or.inl hb)
  rw [h.same b hd (h.held p x b hb), hx]

theorem Content.take (h : Content dev s) {x : ℕ} (hv : (s.buf b).valid = true) :
    Content dev (s.take p x b) := by
  have hheld : ∀ q y c, (y,c) ∈ ((s.take p x b).proc q).held →
      (y,c) ∈ (s.proc q).held ∨ c = b := by
    intro q y c hq
    by_cases hqp : q = p
    · subst hqp
      rw [St.take, s.setProc_self] at hq
      rcases List.mem_cons.mp hq with hq | hq
      · exact Or.inr (congrArg Prod.snd hq)
      · exact Or.inl hq
    · rw [St.take, s.setProc_of_ne hqp] at hq
      exact Or.inl hq
  refine ⟨h.same,?_,h.dirty,?_,h.disk⟩
  · intro q y c hq
    rcases hheld q y c hq with hq | rfl
    · exact h.held q y c hq
    · exact hv
  · intro c hc
    obtain ⟨q,y,hq⟩ := h.touched c hc
    refine ⟨q,y,?_⟩
    by_cases hqp : q = p
    · subst hqp
      rw [St.take, s.setProc_self]
      exact List.mem_cons_of_mem _ hq
    · rwa [St.take, s.setProc_of_ne hqp]

theorem Content.fresh (h : Content dev s) (hv : (s.buf b).valid = false) :
    (s.buf b).dirty = false ∧ (s.buf b).touched = false := by
  constructor
  · by_contra hd
    rw [h.dirty b (by simpa using hd)] at hv
    cases hv
  · by_contra ht
    obtain ⟨q,y,hq⟩ := h.touched b (by simpa using ht)
    rw [h.held q y b hq] at hv
    cases hv

theorem Content.clean (h : Content dev s) (hi : Shape dev s) (hd : (s.buf b).dev = dev)
    (hdirty : (s.buf b).dirty = false) (ht : (s.buf b).touched = false) :
    s.disk (s.buf b).blockno = s.mem (s.buf b).blockno := by
  rcases h.disk (s.buf b).blockno with hm | ⟨c,hc,hn,hdt⟩
  · exact hm
  · rw [hi.one c b hc hd hn, hdirty, ht] at hdt
    rcases hdt with hdt | hdt <;> cases hdt

theorem Content.load (h : Content dev s) (hi : Shape dev s) {x : ℕ}
    (hp : (s.proc p).call = .load x b) (hv : (s.buf b).valid = false) :
    Content dev ((s.iderw b).take p x b) := by
  obtain ⟨hd,hx⟩ := hi.key p x b (Or.inr (Or.inr hp))
  obtain ⟨hdirty,ht⟩ := h.fresh hv
  have hm := h.clean hi hd hdirty ht
  have heq : s.iderw b =
      s.setBuf b { s.buf b with valid := true, data := s.disk (s.buf b).blockno } := by
    rw [St.iderw, hdirty]
    rfl
  rw [heq]
  refine Content.take ?_ (by simp [St.setBuf])
  refine h.put hi ⟨hd,hx⟩ rfl (fun _ => rfl) ⟨hd,hx⟩ ⟨rfl,?_⟩ ?_ (Or.inl ?_) (fun _ _ => ⟨rfl,rfl⟩)
  · rw [← hx]
    exact hm
  · intro htrue
    rw [show (s.buf b).touched = true from htrue] at ht
    cases ht
  · rw [← hx]
    exact hm

theorem Content.bwrite (h : Content dev s) (hi : Shape dev s) {x : ℕ}
    (hb : (x,b) ∈ (s.proc p).held) : Content dev (s.bwrite b) := by
  obtain ⟨hd,hx⟩ := hi.key p x b (Or.inl hb)
  have hdata := h.read hi hb
  have heq : s.bwrite b =
      { s.setBuf b { s.buf b with valid := true, dirty := false, touched := false } with
        disk := Function.update s.disk x (s.buf b).data } := by
    simp [St.bwrite, St.iderw, St.setBuf, hx]
  rw [heq]
  refine h.put hi ⟨hd,hx⟩ rfl (fun _ => rfl) ⟨hd,hx⟩ ⟨rfl,hdata⟩ (fun ht => nomatch ht) (Or.inl ?_) ?_
  · exact (Function.update_self x _ s.disk).trans hdata
  · intro y hy
    exact ⟨Function.update_of_ne hy _ s.disk,rfl⟩

theorem Content.store (h : Content dev s) (hi : Shape dev s) {x : ℕ}
    (hb : (x,b) ∈ (s.proc p).held) (v : Block) : Content dev (s.store x b v) := by
  have hkey := hi.key p x b (Or.inl hb)
  refine h.put hi hkey rfl (fun _ => rfl) hkey ⟨h.held p x b hb,?_⟩ (fun _ => ⟨p,x,hb⟩)
    (Or.inr (Or.inr rfl)) ?_
  · exact (Function.update_self x v s.mem).symm
  · intro y hy
    refine ⟨rfl,?_⟩
    show Function.update s.mem x v y = s.mem y
    exact Function.update_of_ne hy v s.mem

theorem Content.logWrite (h : Content dev s) (hi : Shape dev s) {x : ℕ}
    (hb : (x,b) ∈ (s.proc p).held) (lh : List ℕ) :
    Content dev { s.setBuf b { s.buf b with dirty := true, touched := false } with lh := lh } := by
  have hkey := hi.key p x b (Or.inl hb)
  exact h.put hi hkey rfl (fun _ => rfl) hkey ⟨h.held p x b hb,h.read hi hb⟩ (fun ht => nomatch ht)
    (Or.inr (Or.inl rfl)) (fun _ _ => ⟨rfl,rfl⟩)

theorem Content.install (h : Content dev s) (hi : Shape dev s) {x : ℕ} {v : Block}
    (hb : (x,b) ∈ (s.proc p).held) (hv : v = s.mem x) :
    Content dev (s.setBuf b { s.buf b with data := v }) := by
  have hkey := hi.key p x b (Or.inl hb)
  refine h.put hi hkey rfl (fun _ => rfl) hkey ⟨h.held p x b hb,hv⟩ (fun _ => ⟨p,x,hb⟩) ?_
    (fun _ _ => ⟨rfl,rfl⟩)
  rcases h.disk x with hd | ⟨c,hd,hn,hdt⟩
  · exact Or.inl hd
  · rw [hi.one c b hd hkey.1 (hn.trans hkey.2.symm)] at hdt
    exact Or.inr hdt

theorem Content.release (h : Content dev s) (hi : Shape dev s) {x : ℕ}
    (hb : (x,b) ∈ (s.proc p).held) (ht : (s.buf b).touched = false) :
    Content dev (s.release p x b) := by
  have hbuf : ∀ c, ((s.release p x b).buf c).content = (s.buf c).content := update_content rfl
  have h' : Content dev (s.setBuf b { s.buf b with lock := none }) :=
    h.congr rfl rfl (update_content rfl) fun _ => rfl
  refine ⟨h'.same,?_,h'.dirty,?_,h'.disk⟩
  · intro q y c hq
    apply h'.held q y c
    by_cases hqp : q = p
    · subst hqp
      rw [St.release, St.setProc_self] at hq
      exact List.mem_of_mem_erase hq
    · rwa [St.release, St.setProc_of_ne _ hqp] at hq
  · intro c hc
    obtain ⟨q,y,hq⟩ := h'.touched c hc
    refine ⟨q,y,?_⟩
    by_cases hqp : q = p
    · subst hqp
      rw [St.release, St.setProc_self]
      refine (hi.nodup q).mem_erase_iff.mpr ⟨?_,hq⟩
      intro heq
      have hcb : c = b := congrArg Prod.snd heq
      rw [hcb] at hc
      have hct : (s.buf b).touched = true := by simpa [St.release, St.setBuf, St.setProc] using hc
      rw [hct] at ht
      cases ht
    · rwa [St.release, St.setProc_of_ne _ hqp]

theorem Content.recycle (h : Content dev s) (hi : Shape dev s) {x : ℕ} (hb : s.unused = some b) :
    Content dev (s.setBuf b { s.buf b with
      dev := dev, blockno := x, valid := false, dirty := false, refcnt := 1 }) := by
  obtain ⟨hr,hdirty⟩ := hi.unused_some hb
  have hfree : ∀ q y, (y,b) ∉ (s.proc q).held := by
    intro q y hq
    have hl := (hi.idle hr).1
    rw [hi.held q y b hq] at hl
    cases hl
  have ht : (s.buf b).touched = false := by
    by_contra ht
    obtain ⟨q,y,hq⟩ := h.touched b (by simpa using ht)
    exact hfree q y hq
  generalize hf : ({ s.buf b with
    dev := dev, blockno := x, valid := false, dirty := false, refcnt := 1 } : Buf n) = f
  have hnot : f.valid = false ∧ f.dirty = false ∧ f.touched = false := by
    rw [← hf]
    exact ⟨rfl,rfl,ht⟩
  have hat : (s.setBuf b f).buf b = f := by simp [St.setBuf]
  have hne : ∀ c, c ≠ b → (s.setBuf b f).buf c = s.buf c := by
    intro c hc
    simp [St.setBuf, Function.update_of_ne hc]
  refine ⟨?_,?_,?_,?_,?_⟩
  · intro c hd hv
    by_cases hc : c = b
    · rw [hc, hat, hnot.1] at hv
      cases hv
    · rw [hne c hc] at hd hv ⊢
      exact h.same c hd hv
  · intro q y c hq
    have hc : c ≠ b := by
      rintro rfl
      exact hfree q y hq
    rw [hne c hc]
    exact h.held q y c hq
  · intro c hd
    by_cases hc : c = b
    · rw [hc, hat, hnot.2.1] at hd
      cases hd
    · rw [hne c hc] at hd ⊢
      exact h.dirty c hd
  · intro c hd
    by_cases hc : c = b
    · rw [hc, hat, hnot.2.2] at hd
      cases hd
    · rw [hne c hc] at hd
      exact h.touched c hd
  · intro y
    rcases h.disk y with hd | ⟨c,hd,hn,hdt⟩
    · exact Or.inl hd
    · have hc : c ≠ b := by
        rintro rfl
        rw [hdirty, ht] at hdt
        rcases hdt with hdt | hdt <;> cases hdt
      exact Or.inr ⟨c,by rw [hne c hc]; exact ⟨hd,hn,hdt⟩⟩

theorem Content.setProc (h : Content dev s) {e : Proc} (he : e.held = (s.proc p).held) :
    Content dev (s.setProc p e) :=
  h.congr rfl rfl (fun _ => rfl) (setProc_held he)

theorem Content.advance (h : Content dev s) (is : List Instr) : Content dev (s.advance p is) :=
  h.setProc rfl

theorem Content.effect (h : Content dev s) (hi : Shape dev s) {a : Act} (he : Effect s p a s') :
    Content dev s' := by
  cases he with
  | bread x => exact h.setProc rfl
  | bwrite hb => exact h.bwrite hi hb
  | brelse hb ht => exact h.release hi hb ht

theorem Content.drop (h : Content dev s) : Content dev (s.drop b) := by
  unfold St.drop
  dsimp only
  split
  · exact h.congr rfl rfl (update_content rfl) fun _ => rfl
  · exact h.congr rfl rfl (update_content rfl) fun _ => rfl

theorem Content.step (h : Content dev s) (hi : Shape dev s) (hs : Step dev L may s p s')
    (hin : ∀ tail x is, s.Commits p (.install tail x) is → s.mem (L.start+tail+1) = s.mem x) :
    Content dev s' := by
  cases hs with
  | beginOp => exact h.congr rfl rfl (fun _ => rfl) (setProc_held rfl)
  | endOp => exact h.congr rfl rfl (fun _ => rfl) (setProc_held rfl)
  | endLast => exact h.congr rfl rfl (fun _ => rfl) (setProc_held rfl)
  | endPanic => exact h.setProc rfl
  | user _ he => exact h.effect hi he
  | cached => exact h.congr rfl rfl (update_content rfl) (setProc_held rfl)
  | recycle _ _ hb => exact (h.recycle hi hb).setProc rfl
  | noBuffers => exact h.setProc rfl
  | acquire => exact h.congr rfl rfl (update_content rfl) (setProc_held rfl)
  | hit _ hv => exact h.take hv
  | read hp hv => exact h.load hi hp hv
  | drop => exact h.drop.setProc rfl
  | store _ hb => exact h.store hi hb _
  | logWrite _ hb => exact h.logWrite hi hb _
  | tooBig => exact h.setProc rfl
  | act _ he => exact (h.advance _).effect (hi.advance _) he
  | copy _ ht => exact (h.store hi ht _).setProc rfl
  | header _ hb => exact (h.store hi hb _).setProc rfl
  | install hc hl hb =>
    refine (h.install hi hb ?_).setProc rfl
    rw [h.read hi hl]
    exact hin _ _ _ hc
  | clear => exact h.congr rfl rfl (fun _ => rfl) (setProc_held rfl)
  | finish => exact h.congr rfl rfl (fun _ => rfl) (setProc_held rfl)

theorem Start.content (h : Start s) : Content dev s where
  same b _ hv := by
    rw [(h.buf b).2.2.1] at hv
    cases hv
  held p x b hb := by
    rw [h.proc p] at hb
    cases hb
  dirty b hd := by
    rw [(h.buf b).2.2.2.1] at hd
    cases hd
  touched b ht := by
    rw [(h.buf b).2.2.2.2.2] at ht
    cases ht
  disk x := Or.inl (by rw [h.mem])

end Xv6.Bcache
