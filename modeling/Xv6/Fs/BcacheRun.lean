import Xv6.Fs.Bcache

/-!
# Executing a run

`exec` takes the step that a process chooses, when it can be taken, and `run` a list of
such choices. A run that is executed is a run of the buffer cache.
-/

set_option autoImplicit false

namespace Xv6.Bcache
open Xv6.Log Xv6.LogOps

variable {n : ℕ}

/-- What a process does next; `go` goes on with a call or with a commit. -/
inductive Choice where
  | beginOp
  | endOp
  | call (a : Act)
  | store (x : ℕ) (v : Block)
  | logWrite (x : ℕ)
  | go

def Proc.bufOf (e : Proc) (x : ℕ) : Option (Fin NBUF) := (e.held.find? (fun h => h.1 = x)).map Prod.snd

def St.effect (s : St n) (p : Fin n) : Act → Option (St n)
  | .bread x => some (s.goto p (.get x))
  | .bwrite x => ((s.proc p).bufOf x).map s.bwrite
  | .brelse x => match (s.proc p).bufOf x with
    | some b => if (s.buf b).touched then none else some (s.release p x b)
    | none => none

def St.instr (L : Layout) (s : St n) (p : Fin n) (is : List Instr) : Instr → Option (St n)
  | .act a => (s.advance p is).effect p a
  | .copy tail x => match (s.proc p).bufOf (L.start+tail+1), (s.proc p).bufOf x with
    | some t, some b => some ((s.store (L.start+tail+1) t (s.buf b).data).advance p is)
    | _, _ => none
  | .header => ((s.proc p).bufOf L.start).map fun b =>
      (s.store L.start b (header s.lh (s.buf b).data)).advance p is
  | .install tail x => match (s.proc p).bufOf (L.start+tail+1), (s.proc p).bufOf x with
    | some lbuf, some dbuf =>
      some ((s.setBuf dbuf { s.buf dbuf with data := (s.buf lbuf).data }).advance p is)
    | _, _ => none
  | .clear => some { s.advance p is with lh := [] }
  | .finish => some { s.advance p is with committing := false }

/-- The next step of a process inside `bread`, `brelse` or a commit. -/
def St.go (dev : ℕ) (L : Layout) (s : St n) (p : Fin n) : Option (St n) :=
  match (s.proc p).call with
  | .get x => match s.cached dev x with
    | some b => some ((s.setBuf b { s.buf b with refcnt := (s.buf b).refcnt+1 }).goto p (.wait x b))
    | none => match s.unused with
      | some b => some ((s.setBuf b { s.buf b with
          dev := dev, blockno := x, valid := false, dirty := false, refcnt := 1 }).goto p (.wait x b))
      | none => some (s.goto p (.panic "bget: no buffers"))
  | .wait x b =>
    if (s.buf b).lock = none then
      some ((s.setBuf b { s.buf b with lock := some p }).goto p (.load x b))
    else none
  | .load x b => if (s.buf b).valid then some (s.take p x b) else some ((s.iderw b).take p x b)
  | .drop b => some ((s.drop b).goto p .none)
  | .panic _ => none
  | .none => match (s.proc p).prog with
    | [] => none
    | i::is => s.instr L p is i

def St.idle (s : St n) (p : Fin n) : Bool := (s.proc p).call = .none ∧ (s.proc p).prog = []

/-- `ok` says which blocks may be stored to. -/
def St.exec (dev : ℕ) (L : Layout) (ok : St n → ℕ → Bool) (s : St n) (p : Fin n) : Choice → Option (St n)
  | .beginOp =>
    if s.idle p ∧ (s.proc p).inOp = false ∧ s.committing = false ∧
        s.lh.length+(s.outstanding+1)*MAXOPBLOCKS ≤ LOGSIZE then
      some { s.setProc p { s.proc p with inOp := true } with outstanding := s.outstanding+1 }
    else none
  | .endOp =>
    if s.idle p ∧ (s.proc p).inOp = true ∧ s.committing = false then
      if s.outstanding-1 = 0 then
        some { s.setProc p { s.proc p with inOp := false, prog := commit L s.lh++[.finish] } with
          outstanding := s.outstanding-1, committing := true }
      else some { s.setProc p { s.proc p with inOp := false } with outstanding := s.outstanding-1 }
    else none
  | .call a => if s.idle p then s.effect p a else none
  | .store x v =>
    if s.idle p ∧ ok s x then ((s.proc p).bufOf x).map fun b => s.store x b v else none
  | .logWrite x =>
    if s.idle p ∧ ok s x ∧ (s.proc p).inOp = true ∧
        ¬ (LOGSIZE ≤ s.lh.length ∨ L.size-1 ≤ s.lh.length) then
      ((s.proc p).bufOf x).map fun b =>
        { s.setBuf b { s.buf b with dirty := true, touched := false } with lh := absorb s.lh x }
    else none
  | .go => s.go dev L p

def St.run (dev : ℕ) (L : Layout) (ok : St n → ℕ → Bool) : St n → List (Fin n × Choice) → Option (St n)
  | s, [] => some s
  | s, (p,c)::cs => (s.exec dev L ok p c).bind fun s' => s'.run dev L ok cs

variable {dev : ℕ} {L : Layout} {may : St n → ℕ → Prop} {ok : St n → ℕ → Bool} {s s' s₀ : St n} {p : Fin n}

theorem Proc.bufOf_held {e : Proc} {x : ℕ} {b : Fin NBUF} (h : e.bufOf x = some b) :
    (x,b) ∈ e.held := by
  obtain ⟨⟨y,c⟩,hfind,hc⟩ := Option.map_eq_some_iff.mp h
  have hy := List.find?_some hfind
  obtain rfl : y = x := of_decide_eq_true hy
  obtain rfl : c = b := hc
  exact List.mem_of_find?_eq_some hfind

theorem St.user_of_idle (h : s.idle p = true) : s.User p := by
  rw [St.idle, decide_eq_true_eq] at h
  exact h

theorem effect_sound {a : Act} (h : s.effect p a = some s') : Effect s p a s' := by
  cases a with
  | bread x =>
    cases h
    exact .bread x
  | bwrite x =>
    obtain ⟨b,hb,rfl⟩ := Option.map_eq_some_iff.mp h
    exact .bwrite (Proc.bufOf_held hb)
  | brelse x =>
    rw [St.effect] at h
    split at h
    · rename_i b hb
      split at h
      · cases h
      · rename_i ht
        cases h
        exact .brelse (Proc.bufOf_held hb) (by simpa using ht)
    · cases h

theorem instr_sound {i : Instr} {is : List Instr} (hc : s.Commits p i is)
    (h : s.instr L p is i = some s') : Step dev L may s p s' := by
  cases i with
  | act a => exact .act hc (effect_sound h)
  | copy tail x =>
    rw [St.instr] at h
    split at h
    · rename_i t b ht hb
      cases h
      exact .copy hc (Proc.bufOf_held ht) (Proc.bufOf_held hb)
    · cases h
  | header =>
    obtain ⟨b,hb,rfl⟩ := Option.map_eq_some_iff.mp h
    exact .header hc (Proc.bufOf_held hb)
  | install tail x =>
    rw [St.instr] at h
    split at h
    · rename_i l d hl hd
      cases h
      exact .install hc (Proc.bufOf_held hl) (Proc.bufOf_held hd)
    · cases h
  | clear =>
    cases h
    exact .clear hc
  | finish =>
    cases h
    exact .finish hc

theorem go_sound (h : s.go dev L p = some s') : Step dev L may s p s' := by
  unfold St.go at h
  split at h
  · rename_i x hp
    split at h
    · rename_i b hb
      cases h
      exact .cached hp hb
    · rename_i hc
      split at h
      · rename_i b hb
        cases h
        exact .recycle hp hc hb
      · rename_i hb
        cases h
        exact .noBuffers hp hc hb
  · rename_i x b hp
    split at h
    · rename_i hl
      cases h
      exact .acquire hp hl
    · cases h
  · rename_i x b hp
    split at h
    · rename_i hv
      cases h
      exact .hit hp hv
    · rename_i hv
      cases h
      exact .read hp (by simpa using hv)
  · rename_i b hp
    cases h
    exact .drop hp
  · cases h
  · rename_i hp
    split at h
    · cases h
    · rename_i i is hprog
      exact instr_sound ⟨hp,hprog⟩ h

theorem exec_sound (hok : ∀ s x, ok s x = true → may s x) {c : Choice}
    (h : s.exec dev L ok p c = some s') : Step dev L may s p s' := by
  cases c with
  | beginOp =>
    obtain ⟨⟨hi,ho,hc,hl⟩,h⟩ := Option.ite_none_right_eq_some.mp h
    cases h
    exact .beginOp (St.user_of_idle hi) ho hc hl
  | endOp =>
    obtain ⟨⟨hi,ho,hc⟩,h⟩ := Option.ite_none_right_eq_some.mp h
    split at h
    · rename_i hl
      cases h
      exact .endLast (St.user_of_idle hi) ho hc hl
    · rename_i hl
      cases h
      exact .endOp (St.user_of_idle hi) ho hc hl
  | call a =>
    obtain ⟨hi,h⟩ := Option.ite_none_right_eq_some.mp h
    exact .user (St.user_of_idle hi) (effect_sound h)
  | store x v =>
    obtain ⟨⟨hi,hx⟩,h⟩ := Option.ite_none_right_eq_some.mp h
    obtain ⟨b,hb,rfl⟩ := Option.map_eq_some_iff.mp h
    exact .store (St.user_of_idle hi) (Proc.bufOf_held hb) (hok s x hx)
  | logWrite x =>
    obtain ⟨⟨hi,hx,ho,hl⟩,h⟩ := Option.ite_none_right_eq_some.mp h
    obtain ⟨b,hb,rfl⟩ := Option.map_eq_some_iff.mp h
    exact .logWrite (St.user_of_idle hi) (Proc.bufOf_held hb) ho (hok s x hx) hl
  | go => exact go_sound h

theorem run_reach (hok : ∀ s x, ok s x = true → may s x) (cs : List (Fin n × Choice))
    (h : Reach dev L may s₀ s) (hr : s.run dev L ok cs = some s') : Reach dev L may s₀ s' := by
  induction cs generalizing s with
  | nil =>
    cases hr
    exact h
  | cons c cs ih =>
    obtain ⟨t,ht,hr⟩ := Option.bind_eq_some_iff.mp hr
    exact ih (h.step (exec_sound hok ht)) hr

/-! ## Lists of choices -/

def booted (n : ℕ) : St n where
  disk _ _ := 0
  mem _ _ := 0
  buf _ := ⟨0,0,0,false,false,fun _ => 0,none,false⟩
  ptrs := binit
  lh := []
  outstanding := 0
  committing := false
  proc _ := ⟨.none,[],false,[]⟩

theorem booted_start (n : ℕ) : Start (booted n) :=
  ⟨rfl,rfl,fun _ => ⟨rfl,rfl,rfl,rfl,rfl,rfl⟩,⟨rfl,rfl,rfl⟩,fun _ => rfl⟩

/-- An uninterrupted `bread`. -/
def breadRun (p : Fin n) (x : ℕ) : List (Fin n × Choice) :=
  (p,.call (.bread x))::List.replicate 3 (p,.go)

end Xv6.Bcache
