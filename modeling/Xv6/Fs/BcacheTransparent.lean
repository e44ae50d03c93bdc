import Xv6.Fs.Protocol
import Xv6.Fs.BcacheContent
import Xv6.Fs.BcacheRun

/-!
# Commits are transparent

`Agrees` follows the rest of a commit over the contents of the blocks: at every
`memmove` of `install_trans` the log block has the contents of its block. It holds when
the commit starts, and a store to a block that is neither logged nor in the log keeps it.
-/

set_option autoImplicit false

namespace Xv6.Bcache
open Xv6.Links Xv6.Log Xv6.LogOps

def Agrees (L : Layout) : List ℕ → (ℕ → Block) → List Instr → Prop
  | _, _, [] => True
  | lh, m, .act _::is => Agrees L lh m is
  | lh, m, .copy tail x::is => x ∈ lh ∧ tail < L.size-1 ∧
      Agrees L lh (Function.update m (L.start+tail+1) (m x)) is
  | lh, m, .header::is => Agrees L lh (Function.update m L.start (header lh (m L.start))) is
  | lh, m, .install tail x::is => x ∈ lh ∧ tail < L.size-1 ∧ m (L.start+tail+1) = m x ∧
      Agrees L lh m is
  | _, m, .clear::is => Agrees L [] m is
  | lh, m, .finish::is => Agrees L lh m is

variable {L : Layout}

theorem Agrees.other {lh : List ℕ} {m : ℕ → Block} {is : List Instr} {y : ℕ}
    (h : Agrees L lh m is) (hy : L.home y) (hn : y ∉ lh) (v : Block) :
    Agrees L lh (Function.update m y v) is := by
  have hstart := L.home_start hy
  induction is generalizing lh m with
  | nil => trivial
  | cons i is ih =>
    cases i with
    | act a => exact ih h hn
    | copy tail x =>
      obtain ⟨hx,ht,h⟩ := h
      refine ⟨hx,ht,?_⟩
      have hxy : x ≠ y := fun heq => hn (heq ▸ hx)
      rw [Function.update_of_ne hxy, Function.update_comm (L.home_body ht hy)]
      exact ih h hn
    | header =>
      show Agrees L lh (Function.update (Function.update m y v) L.start _) is
      rw [Function.update_of_ne hstart.symm, Function.update_comm hstart]
      exact ih h hn
    | install tail x =>
      obtain ⟨hx,ht,heq,h⟩ := h
      have hxy : x ≠ y := fun heq => hn (heq ▸ hx)
      refine ⟨hx,ht,?_,ih h hn⟩
      rwa [Function.update_of_ne hxy, Function.update_of_ne (L.home_body ht hy).symm]
    | clear => exact ih h List.not_mem_nil
    | finish => exact ih h hn

theorem agrees_writeLog {lh xs : List ℕ} {m : ℕ → Block} {js : List Instr} {tail : ℕ}
    (hx : ∀ x ∈ xs, x ∈ lh) (hh : ∀ x ∈ lh, L.home x) (hlen : tail+xs.length ≤ L.size-1)
    (hk : ∀ m', (∀ y, L.home y → m' y = m y) →
      (∀ i, i < tail → m' (L.start+i+1) = m (L.start+i+1)) →
      (∀ i x, xs[i]? = some x → m' (L.start+(tail+i)+1) = m x) → Agrees L lh m' js) :
    Agrees L lh m (forBlocks (writeLog L) tail xs++js) := by
  induction xs generalizing tail m with
  | nil => exact hk m (fun _ _ => rfl) (fun _ _ => rfl) (by simp)
  | cons x xs ih =>
    rw [List.length_cons] at hlen
    have ht : tail < L.size-1 := by omega
    have hlog : ∀ y, L.home y → Function.update m (L.start+tail+1) (m x) y = m y :=
      fun y hy => Function.update_of_ne (L.home_body ht hy) _ m
    refine ⟨hx x List.mem_cons_self,ht,?_⟩
    refine ih (fun z hz => hx z (List.mem_cons_of_mem x hz)) (by omega) ?_
    intro m' hhome hlow hcopy
    refine hk m' (fun y hy => (hhome y hy).trans (hlog y hy)) ?_ ?_
    · intro i hi
      rw [hlow i (by omega), Function.update_of_ne (by omega)]
    · intro i z hz
      cases i with
      | zero =>
        obtain rfl : x = z := by simpa using hz
        exact (hlow tail (by omega)).trans (Function.update_self ..)
      | succ i =>
        have hz' : xs[i]? = some z := by simpa using hz
        have hmem : z ∈ x::xs := List.mem_cons_of_mem x (List.mem_of_getElem? hz')
        rw [show tail+(i+1) = tail+1+i by omega, hcopy i z hz', hlog z (hh z (hx z hmem))]

theorem agrees_installTrans {lh xs : List ℕ} {m : ℕ → Block} {js : List Instr} {tail : ℕ}
    (h : ∀ i x, xs[i]? = some x → x ∈ lh ∧ tail+i < L.size-1 ∧ m (L.start+(tail+i)+1) = m x)
    (hk : Agrees L lh m js) : Agrees L lh m (forBlocks (installTrans L) tail xs++js) := by
  induction xs generalizing tail with
  | nil => exact hk
  | cons x xs ih =>
    obtain ⟨hx,ht,heq⟩ := h 0 x rfl
    refine ⟨hx,ht,heq,ih ?_⟩
    intro i z hz
    rw [show tail+1+i = tail+(i+1) by omega]
    exact h (i+1) z (by simpa using hz)

theorem agrees_commit {lh : List ℕ} (m : ℕ → Block) (hh : ∀ x ∈ lh, L.home x)
    (hlen : lh.length ≤ L.size-1) : Agrees L lh m (commit L lh++[.finish]) := by
  unfold commit
  split
  · trivial
  · simp only [List.append_assoc]
    refine agrees_writeLog (fun _ hx => hx) hh (by omega) ?_
    intro m' hhome _ hcopy
    show Agrees L lh (Function.update m' L.start (header lh (m' L.start))) _
    refine agrees_installTrans ?_ trivial
    intro i x hx
    have hmem : x ∈ lh := List.mem_of_getElem? hx
    have hi : i < lh.length := (List.getElem?_eq_some_iff.mp hx).1
    have hxh := hh x hmem
    refine ⟨hmem,by omega,?_⟩
    rw [Function.update_of_ne (by omega), Function.update_of_ne (L.home_start hxh), hcopy i x hx,
      hhome x hxh]

/-! ## Runs -/

variable {n dev : ℕ} {s s' s₀ t : St n} {p : Fin n}

/-- Callers store to blocks outside the log, and while a commit is on, to none of the
blocks that it installs. -/
def Polite (L : Layout) (s : St n) (x : ℕ) : Prop :=
  L.home x ∧ (s.committing = true → x ∉ s.lh)

structure Logged (L : Layout) (s : St n) : Prop where
  home : ∀ x ∈ s.lh, L.home x
  short : s.lh.length ≤ L.size-1
  agrees : ∀ p, Agrees L s.lh s.mem (s.proc p).prog

theorem Logged.congr (h : Logged L s) (hq : Quiet s s') : Logged L s' := by
  refine ⟨?_,?_,?_⟩
  · rw [hq.lh]
    exact h.home
  · rw [hq.lh]
    exact h.short
  · intro p
    rw [hq.lh, hq.mem, hq.prog p]
    exact h.agrees p

theorem Logged.advance (h : Logged L s) (ht : Txns s) {i : Instr} {is : List Instr}
    {lh : List ℕ} {m : ℕ → Block} (hp : (s.proc p).prog = i::is) (hlh : lh = s.lh ∨ lh = [])
    (ha : Agrees L lh m is) : Logged L { s.advance p is with lh := lh, mem := m } := by
  refine ⟨?_,?_,?_⟩
  · rcases hlh with rfl | rfl
    · exact h.home
    · exact fun x hx => absurd hx List.not_mem_nil
  · rcases hlh with rfl | rfl
    · exact h.short
    · exact Nat.zero_le _
  · intro q
    show Agrees L lh m ((s.advance p is).proc q).prog
    by_cases hq : q = p
    · rw [hq, s.advance_self]
      exact ha
    · have hnil : (s.proc q).prog = [] := by
        by_contra hne
        exact hq (ht.sole q p hne (by rw [hp]; exact List.cons_ne_nil i is))
      rw [St.advance, s.setProc_of_ne hq, hnil]
      trivial

theorem Logged.setProc (h : Logged L s) {e : Proc} (he : Agrees L s.lh s.mem e.prog) (q : Fin n) :
    Agrees L s.lh s.mem ((s.setProc p e).proc q).prog := by
  by_cases hq : q = p
  · rwa [hq, s.setProc_self]
  · rw [s.setProc_of_ne hq]
    exact h.agrees q

theorem Logged.log (h : Logged L s) (ht : Txns s)
    (hdata : ∀ p x b, (x,b) ∈ (s.proc p).held → (s.buf b).data = s.mem x)
    (hs : LogStep L (Polite L) s p t) : Logged L t := by
  -- What is left of the program of a process that commits.
  have hrest : ∀ {i : Instr} {is : List Instr}, s.Commits p i is → Agrees L s.lh s.mem (i::is) := by
    intro i is hc
    rw [← hc.2]
    exact h.agrees p
  cases hs with
  | same => exact h
  | beginOp => exact ⟨h.home,h.short,h.setProc (h.agrees p)⟩
  | endOp => exact ⟨h.home,h.short,h.setProc (h.agrees p)⟩
  | endLast => exact ⟨h.home,h.short,h.setProc (agrees_commit s.mem h.home h.short)⟩
  | @store x v hm =>
    refine ⟨h.home,h.short,fun q => ?_⟩
    show Agrees L s.lh (Function.update s.mem x v) (s.proc q).prog
    cases hc : s.committing with
    | true => exact (h.agrees q).other hm.1 (hm.2 hc) v
    | false =>
      rw [ht.idle hc q]
      trivial
  | @logWrite x ho hm hl =>
    refine ⟨?_,?_,fun q => ?_⟩
    · intro y hy
      rcases mem_absorb.mp hy with rfl | hy
      · exact hm.1
      · exact h.home y hy
    · show (absorb s.lh x).length ≤ L.size-1
      unfold absorb
      split
      · exact h.short
      · rw [List.length_append, List.length_singleton]
        omega
    · show Agrees L (absorb s.lh x) s.mem (s.proc q).prog
      rw [ht.idle (ht.inOp_idle ho).2 q]
      trivial
  | advance hc => exact h.advance ht hc.2 (Or.inl rfl) (hrest hc)
  | copy hc hb =>
    refine h.advance ht hc.2 (Or.inl rfl) ?_
    rw [hdata p _ _ hb]
    exact (hrest hc).2.2
  | header hc hb =>
    refine h.advance ht hc.2 (Or.inl rfl) ?_
    rw [hdata p _ _ hb]
    exact hrest hc
  | install hc => exact h.advance ht hc.2 (Or.inl rfl) (hrest hc).2.2.2
  | clear hc => exact h.advance ht hc.2 (Or.inr rfl) (hrest hc)
  | finish hc =>
    have ha := h.advance ht hc.2 (Or.inl rfl) (hrest hc)
    exact ⟨ha.home,ha.short,ha.agrees⟩

structure Cache (dev : ℕ) (L : Layout) (s : St n) : Prop where
  shape : Shape dev s
  content : Content dev s
  txns : Txns s
  logged : Logged L s

theorem Cache.step (h : Cache dev L s) (hs : Step dev L (Polite L) s p s') : Cache dev L s' := by
  have hin : ∀ tail x is, s.Commits p (.install tail x) is →
      s.mem (L.start+tail+1) = s.mem x := by
    intro tail x is hc
    have ha := h.logged.agrees p
    rw [hc.2] at ha
    exact ha.2.2.1
  obtain ⟨t,hl,hq⟩ := hs.log
  exact ⟨h.shape.step hs,h.content.step h.shape hs hin,h.txns.step hs,
    (h.logged.log h.txns (fun _ _ _ hb => h.content.read h.shape hb) hl).congr hq⟩

theorem Start.cache (h : Start s) (hdev : dev ≠ 0) : Cache dev L s := by
  refine ⟨h.shape hdev,h.content,h.txns,?_,?_,?_⟩
  · rw [h.log.1]
    exact fun x hx => absurd hx List.not_mem_nil
  · rw [h.log.1]
    exact Nat.zero_le _
  · intro p
    rw [h.proc p]
    trivial

theorem Reach.cache (hdev : dev ≠ 0) (h₀ : Start s₀) (h : Reach dev L (Polite L) s₀ s) :
    Cache dev L s := by
  induction h with
  | start => exact h₀.cache hdev
  | step _ hs ih => exact ih.step hs

instance (L : Layout) (s : St n) (x : ℕ) : Decidable (Polite L s x) :=
  inferInstanceAs (Decidable ((x < L.start ∨ L.start+L.size ≤ x) ∧ (s.committing = true → x ∉ s.lh)))

end Xv6.Bcache
