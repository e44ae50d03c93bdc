import Xv6.Fs.Bcache

/-!
# Who has which buffer

The part of the invariant that does not look at the data: the list of buffers is linked
both ways and has each buffer once, no two buffers are for one block, `refcnt` counts
the holder of the lock and those that wait for it or are about to drop the buffer, and
a buffer that `bread` returned stays the buffer of its block until `brelse`.
-/

set_option autoImplicit false

namespace Xv6.Bcache
open Xv6.Links Xv6.Refs

variable {n : ℕ}

/-- The buffer that a process counts for in `refcnt` without its lock. -/
def Call.pending : Call → Option (Fin NBUF)
  | .wait _ b => some b
  | .drop b => some b
  | _ => Option.none

def buf0 : Fin NBUF := ⟨0,Nat.succ_pos 29⟩

def lockBit (e : Buf n) : ℕ := if e.lock.isSome then 1 else 0

structure Shape (dev : ℕ) (s : St n) : Prop where
  links : ∃ xs : List (Fin NBUF), xs.Perm (List.finRange NBUF) ∧ Linked s.ptrs xs
  devs : ∀ b, (s.buf b).dev = 0 ∨ (s.buf b).dev = dev
  one : ∀ b b', (s.buf b).dev = dev → (s.buf b').dev = dev →
    (s.buf b).blockno = (s.buf b').blockno → b = b'
  count : ∀ b, (s.buf b).refcnt = lockBit (s.buf b)+number (fun p => (s.proc p).call.pending) b
  held : ∀ p x b, (x,b) ∈ (s.proc p).held → (s.buf b).lock = some p
  load : ∀ p x b, (s.proc p).call = .load x b →
    (s.buf b).lock = some p ∧ ∀ y, (y,b) ∉ (s.proc p).held
  owner : ∀ b p, (s.buf b).lock = some p →
    (∃ x, (x,b) ∈ (s.proc p).held) ∨ ∃ x, (s.proc p).call = .load x b
  nodup : ∀ p, (s.proc p).held.Nodup
  key : ∀ p x b, (x,b) ∈ (s.proc p).held ∨ (s.proc p).call = .wait x b ∨
    (s.proc p).call = .load x b → (s.buf b).dev = dev ∧ (s.buf b).blockno = x

/-- What the invariant reads of a buffer and of a process. -/
def Buf.shape (e : Buf n) : ℕ × ℕ × ℕ × Option (Fin n) := (e.dev,e.blockno,e.refcnt,e.lock)

def Proc.shape (e : Proc) : Call × List (ℕ × Fin NBUF) := (e.call,e.held)

variable {dev : ℕ} {s s' : St n} {p : Fin n} {b : Fin NBUF}

theorem Buf.shape_eq {e e' : Buf n} (h : e'.shape = e.shape) :
    e'.dev = e.dev ∧ e'.blockno = e.blockno ∧ e'.refcnt = e.refcnt ∧ e'.lock = e.lock := by
  simpa [Buf.shape] using h

theorem Proc.shape_eq {e e' : Proc} (h : e'.shape = e.shape) :
    e'.call = e.call ∧ e'.held = e.held := by
  simpa [Proc.shape] using h

theorem Shape.congr (h : Shape dev s) (hptrs : s'.ptrs = s.ptrs)
    (hbuf : ∀ b, (s'.buf b).shape = (s.buf b).shape)
    (hproc : ∀ p, (s'.proc p).shape = (s.proc p).shape) : Shape dev s' := by
  have hd : ∀ b, (s'.buf b).dev = (s.buf b).dev := fun b => (Buf.shape_eq (hbuf b)).1
  have hn : ∀ b, (s'.buf b).blockno = (s.buf b).blockno := fun b => (Buf.shape_eq (hbuf b)).2.1
  have hr : ∀ b, (s'.buf b).refcnt = (s.buf b).refcnt := fun b => (Buf.shape_eq (hbuf b)).2.2.1
  have hl : ∀ b, (s'.buf b).lock = (s.buf b).lock := fun b => (Buf.shape_eq (hbuf b)).2.2.2
  have hc : ∀ p, (s'.proc p).call = (s.proc p).call := fun p => (Proc.shape_eq (hproc p)).1
  have hh : ∀ p, (s'.proc p).held = (s.proc p).held := fun p => (Proc.shape_eq (hproc p)).2
  refine ⟨by rw [hptrs]; exact h.links,?_,?_,?_,?_,?_,?_,?_,?_⟩
  · simpa only [hd] using h.devs
  · simpa only [hd, hn] using h.one
  · simpa only [lockBit, hr, hl, hc] using h.count
  · simpa only [hl, hh] using h.held
  · simpa only [hl, hh, hc] using h.load
  · simpa only [hl, hh, hc] using h.owner
  · simpa only [hh] using h.nodup
  · simpa only [hd, hn, hh, hc] using h.key

theorem Shape.idle (h : Shape dev s) (hr : (s.buf b).refcnt = 0) :
    (s.buf b).lock = none ∧ ∀ q, (s.proc q).call.pending ≠ some b := by
  have hc := h.count b
  constructor
  · by_contra hl
    have hb : lockBit (s.buf b) = 1 := by
      rw [lockBit, if_pos (Option.isSome_iff_ne_none.mpr hl)]
    omega
  · intro q hq
    have hn : 0 < number (fun p => (s.proc p).call.pending) b := number_pos.mpr ⟨q,hq⟩
    omega

/-- A step that changes process `p` and buffer `b`: the lock of `b` is left, taken or
released by `p`, and `b` keeps its block unless it was unreferenced. -/
structure Change (s s' : St n) (p : Fin n) (e : Proc) (b : Fin NBUF) (f : Buf n) : Prop where
  proc : s'.proc = Function.update s.proc p e
  buf : s'.buf = Function.update s.buf b f
  lock : f.lock = (s.buf b).lock ∨ ((s.buf b).lock = none ∧ f.lock = some p) ∨
    ((s.buf b).lock = some p ∧ f.lock = none)
  key : (f.dev = (s.buf b).dev ∧ f.blockno = (s.buf b).blockno) ∨ (s.buf b).refcnt = 0

variable {e : Proc} {f : Buf n}

theorem Change.self (h : Change s s' p e b f) : s'.proc p = e := by
  rw [h.proc, Function.update_self]

theorem Change.other (h : Change s s' p e b f) {q : Fin n} (hq : q ≠ p) : s'.proc q = s.proc q := by
  rw [h.proc, Function.update_of_ne hq]

theorem Change.at (h : Change s s' p e b f) : s'.buf b = f := by
  rw [h.buf, Function.update_self]

theorem Change.keeps (h : Change s s' p e b f) {c : Fin NBUF} (hc : c ≠ b) : s'.buf c = s.buf c := by
  rw [h.buf, Function.update_of_ne hc]

theorem Change.owner (h : Change s s' p e b f) {q : Fin n} (hq : q ≠ p) (c : Fin NBUF) :
    (s'.buf c).lock = some q ↔ (s.buf c).lock = some q := by
  by_cases hc : c = b
  · subst hc
    rw [h.at]
    rcases h.lock with hl | ⟨h1,h2⟩ | ⟨h1,h2⟩
    · rw [hl]
    · simp [h1, h2, Ne.symm hq]
    · simp [h1, h2, Ne.symm hq]
  · rw [h.keeps hc]

theorem Change.asked (h : Change s s' p e b f) (hi : Shape dev s) {q : Fin n} {x : ℕ}
    {c : Fin NBUF} (ha : (x,c) ∈ (s.proc q).held ∨ (s.proc q).call = .wait x c ∨
      (s.proc q).call = .load x c) : (s'.buf c).dev = dev ∧ (s'.buf c).blockno = x := by
  by_cases hc : c = b
  · subst hc
    rw [h.at]
    rcases h.key with ⟨h1,h2⟩ | hr
    · rw [h1, h2]
      exact hi.key q x c ha
    · obtain ⟨hl,hp⟩ := hi.idle hr
      rcases ha with ha | ha | ha
      · rw [hi.held q x c ha] at hl
        cases hl
      · exact absurd (by rw [ha]; rfl) (hp q)
      · rw [(hi.load q x c ha).1] at hl
        cases hl
  · rw [h.keeps hc]
    exact hi.key q x c ha

theorem Shape.change (hi : Shape dev s) (h : Change s s' p e b f)
    (hlinks : ∃ xs : List (Fin NBUF), xs.Perm (List.finRange NBUF) ∧ Linked s'.ptrs xs)
    (hone : (f.dev = dev ∧ ∀ c, c ≠ b → (s.buf c).dev = dev → (s.buf c).blockno ≠ f.blockno) ∨
      (f.dev = (s.buf b).dev ∧ f.blockno = (s.buf b).blockno))
    (hcount : ∀ c, (s'.buf c).refcnt+lockBit (s.buf c)+
        (if (s.proc p).call.pending = some c then 1 else 0) =
      (s.buf c).refcnt+lockBit (s'.buf c)+(if e.call.pending = some c then 1 else 0))
    (hheld : ∀ x c, (x,c) ∈ e.held → (s'.buf c).lock = some p)
    (hload : ∀ x c, e.call = .load x c → (s'.buf c).lock = some p ∧ ∀ y, (y,c) ∉ e.held)
    (howner : ∀ c, (s'.buf c).lock = some p → (∃ x, (x,c) ∈ e.held) ∨ ∃ x, e.call = .load x c)
    (hnodup : e.held.Nodup)
    (hkey : ∀ x c, (x,c) ∈ e.held ∨ e.call = .wait x c ∨ e.call = .load x c →
      (s'.buf c).dev = dev ∧ (s'.buf c).blockno = x) : Shape dev s' where
  links := hlinks
  devs c := by
    by_cases hc : c = b
    · subst hc
      rw [h.at]
      rcases hone with ⟨h1,-⟩ | ⟨h1,-⟩
      · exact Or.inr h1
      · rw [h1]
        exact hi.devs c
    · rw [h.keeps hc]
      exact hi.devs c
  one c c' := by
    have hb : ∀ d, d ≠ b → f.dev = dev → (s.buf d).dev = dev → (s.buf d).blockno ≠ f.blockno := by
      intro d hd hf hdd
      rcases hone with ⟨-,hno⟩ | ⟨h1,h2⟩
      · exact hno d hd hdd
      · intro heq
        exact hd (hi.one d b hdd (by rw [← h1]; exact hf) (by rw [heq, h2]))
    by_cases hc : c = b <;> by_cases hc' : c' = b
    · intros
      rw [hc, hc']
    · rw [hc, h.at, h.keeps hc']
      intro h1 h2 h3
      exact absurd h3.symm (hb c' hc' h1 h2)
    · rw [hc', h.at, h.keeps hc]
      intro h1 h2 h3
      exact absurd h3 (hb c hc h2 h1)
    · rw [h.keeps hc, h.keeps hc']
      exact hi.one c c'
  count c := by
    have hu : (fun q => (s'.proc q).call.pending) =
        Function.update (fun q => (s.proc q).call.pending) p e.call.pending := by
      rw [h.proc]
      exact Function.comp_update (fun e : Proc => e.call.pending) s.proc p e
    have hn := number_update (fun q => (s.proc q).call.pending) p e.call.pending c
    have hold := hi.count c
    have hc := hcount c
    rw [hu]
    omega
  held q x c hq := by
    by_cases hqp : q = p
    · subst hqp
      rw [h.self] at hq
      exact hheld x c hq
    · rw [h.other hqp] at hq
      exact (h.owner hqp c).mpr (hi.held q x c hq)
  load q x c hq := by
    by_cases hqp : q = p
    · subst hqp
      rw [h.self] at hq ⊢
      exact hload x c hq
    · rw [h.other hqp] at hq ⊢
      obtain ⟨h1,h2⟩ := hi.load q x c hq
      exact ⟨(h.owner hqp c).mpr h1,h2⟩
  owner c q hq := by
    by_cases hqp : q = p
    · subst hqp
      rw [h.self]
      exact howner c hq
    · rw [h.other hqp]
      exact hi.owner c q ((h.owner hqp c).mp hq)
  nodup q := by
    by_cases hqp : q = p
    · subst hqp
      rwa [h.self]
    · rw [h.other hqp]
      exact hi.nodup q
  key q x c ha := by
    by_cases hqp : q = p
    · subst hqp
      rw [h.self] at ha
      exact hkey x c ha
    · rw [h.other hqp] at ha
      exact h.asked hi ha

end Xv6.Bcache
