import Xv6.User.ShellTokens

/-!
# The grammar of the shell

The derivations of a line from its tokens, each with its tree, and that the parse functions
find exactly these: what they accept has a derivation with the tree they return, a
derivation is found when what follows it is what can follow its nonterminal, and the bound
on the depth is not reached.
-/

set_option autoImplicit false

namespace Xv6.Shell
open Xv6.Halting

/-- `<`, `>` and `>>`. -/
inductive RedirKind where
  | input
  | output
  | append

def RedirKind.token : RedirKind → Token
  | .input => .lt
  | .output => .gt
  | .append => .append

structure Redir where
  kind : RedirKind
  file : Word

def Redir.wrap (r : Redir) (cmd : Cmd) : Cmd :=
  match r.kind with
  | .input => .redir cmd r.file O_RDONLY 0
  | .output => .redir cmd r.file (O_WRONLY+O_CREATE) 1
  | .append => .redir cmd r.file (O_WRONLY+O_CREATE) 1

/-- Each redirection around what precedes it. -/
def wrapAll (rs : List Redir) (cmd : Cmd) : Cmd := rs.foldl (fun c r => r.wrap c) cmd

def redirTokens (rs : List Redir) : List Token :=
  rs.flatMap (fun r => [r.kind.token,.word r.file.q r.file.eq])

def argTokens (args : List (Word × List Redir)) : List Token :=
  args.flatMap (fun a => .word a.1.q a.1.eq::redirTokens a.2)

def backs (j : ℕ) (cmd : Cmd) : Cmd := Cmd.back^[j] cmd

inductive Nonterminal where
  | line
  | pipe
  | exec

inductive Derives : Nonterminal → List Token → Cmd → Prop where
  | simple (rs : List Redir) (args : List (Word × List Redir)) (h : args.length ≤ MAXARGS-1) :
      Derives .exec (redirTokens rs++argTokens args)
        (wrapAll (rs++args.flatMap Prod.snd) (.exec (args.map Prod.fst)))
  | block {ts : List Token} {c : Cmd} (h : Derives .line ts c) (rs : List Redir) :
      Derives .exec (.lpar::(ts++.rpar::redirTokens rs)) (wrapAll rs c)
  | one {ts : List Token} {c : Cmd} (h : Derives .exec ts c) : Derives .pipe ts c
  | pipe {ts us : List Token} {c d : Cmd} (h : Derives .exec ts c) (h' : Derives .pipe us d) :
      Derives .pipe (ts++.bar::us) (.pipe c d)
  | last {ts : List Token} {c : Cmd} (h : Derives .pipe ts c) (j : ℕ) :
      Derives .line (ts++List.replicate j .amp) (backs j c)
  | list {ts us : List Token} {c d : Cmd} (h : Derives .pipe ts c) (j : ℕ) (h' : Derives .line us d) :
      Derives .line (ts++(List.replicate j .amp++.semi::us)) (.list (backs j c) d)

variable {n : ℕ} {s s' : List UInt8} {c cmd : Cmd}

theorem wrapAll_append (rs rs' : List Redir) (cmd : Cmd) :
    wrapAll (rs++rs') cmd = wrapAll rs' (wrapAll rs cmd) := List.foldl_append ..

theorem addArg_wrapAll (w : Word) (rs : List Redir) (cmd : Cmd) :
    (wrapAll rs cmd).addArg w = wrapAll rs (cmd.addArg w) := by
  induction rs generalizing cmd with
  | nil => rfl
  | cons r rs ih =>
    have hr : (r.wrap cmd).addArg w = r.wrap (cmd.addArg w) := by
      rw [Redir.wrap, Redir.wrap]
      cases r.kind <;> rfl
    change (wrapAll rs (r.wrap cmd)).addArg w = wrapAll rs (r.wrap (cmd.addArg w))
    rw [ih, hr]

/-- The arguments and redirections go into the command one after the other. -/
def addArgs (args : List (Word × List Redir)) (cmd : Cmd) : Cmd :=
  args.foldl (fun c a => wrapAll a.2 (c.addArg a.1)) cmd

theorem addArgs_eq (args : List (Word × List Redir)) (rs : List Redir) (argv : List Word) :
    addArgs args (wrapAll rs (.exec argv)) =
      wrapAll (rs++args.flatMap Prod.snd) (.exec (argv++args.map Prod.fst)) := by
  induction args generalizing rs argv with
  | nil => simp [addArgs]
  | cons a args ih =>
    change addArgs args (wrapAll a.2 ((wrapAll rs (.exec argv)).addArg a.1)) = _
    rw [addArg_wrapAll, ← wrapAll_append]
    change addArgs args (wrapAll (rs++a.2) (.exec (argv++[a.1]))) = _
    rw [ih, List.flatMap_cons, List.map_cons, List.append_assoc, List.append_assoc]
    rfl

/-! ### Looking at the next token -/

theorem headIn_cons (toks : List UInt8) (t : Token) (ts : List Token) :
    headIn toks (t::ts) = t.byte.any toks.contains := rfl

theorem headIn_one {b : UInt8} {t : Token} (ht : t.byte = some b)
    (hb : ∀ t' : Token, t'.byte = some b → t' = t) {ts : List Token} :
    headIn [b] ts = true ↔ ∃ us, ts = t::us := by
  cases ts with
  | nil => simp [headIn]
  | cons t' us =>
    rw [headIn_cons]
    constructor
    · intro h
      obtain ⟨b',hb',heq⟩ := Option.any_eq_true _ _ |>.mp h
      obtain rfl : b' = b := by simpa using heq
      exact ⟨us,by rw [hb t' hb']⟩
    · rintro ⟨us,h⟩
      cases h
      simp [ht]

theorem headIn_amp {ts : List Token} : headIn [amp] ts = true ↔ ∃ us, ts = .amp::us :=
  headIn_one rfl (by rintro (_ | _) <;> simp [Token.byte] <;> decide)

theorem headIn_semi {ts : List Token} : headIn [semi] ts = true ↔ ∃ us, ts = .semi::us :=
  headIn_one rfl (by rintro (_ | _) <;> simp [Token.byte] <;> decide)

theorem headIn_bar {ts : List Token} : headIn [bar] ts = true ↔ ∃ us, ts = .bar::us :=
  headIn_one rfl (by rintro (_ | _) <;> simp [Token.byte] <;> decide)

theorem headIn_lpar {ts : List Token} : headIn [lpar] ts = true ↔ ∃ us, ts = .lpar::us :=
  headIn_one rfl (by rintro (_ | _) <;> simp [Token.byte] <;> decide)

theorem headIn_rpar {ts : List Token} : headIn [rpar] ts = true ↔ ∃ us, ts = .rpar::us :=
  headIn_one rfl (by rintro (_ | _) <;> simp [Token.byte] <;> decide)

theorem headIn_redir {ts : List Token} :
    headIn [lt,gt] ts = true ↔ ∃ (kind : RedirKind) (us : List Token), ts = kind.token::us := by
  cases ts with
  | nil => simp [headIn]
  | cons t us =>
    rw [headIn_cons]
    constructor
    · intro h
      cases t with
      | lt => exact ⟨.input,us,rfl⟩
      | gt => exact ⟨.output,us,rfl⟩
      | append => exact ⟨.append,us,rfl⟩
      | word q e => cases h
      | _ => exact absurd h (by decide)
    · rintro ⟨kind,us',h⟩
      cases h
      cases kind <;> decide

/-! ### The loops -/

theorem parseredirs_eq (k : ℕ) (cmd : Cmd) {kind : RedirKind} {ts : List Token}
    (h : tokens n s = kind.token::ts) : parseredirs n (k+1) cmd s =
      match gettoken n (gettoken n (peek s [lt,gt]).2).2 with
      | (some (.word q eq), s) => parseredirs n k (Redir.wrap ⟨kind,⟨q,eq⟩⟩ cmd) s
      | _ => .error (.panic "missing file for redirection") := by
  have hpeek : (peek s [lt,gt]).1 = true := by
    rw [peek_tokens n s (by decide), headIn_redir]
    exact ⟨kind,ts,h⟩
  have htok := (gettoken_cons ((peek_rest n s [lt,gt]).trans h)).1
  rw [parseredirs, if_pos hpeek]
  generalize gettoken n (peek s [lt,gt]).2 = p at htok ⊢
  obtain ⟨tok,s1⟩ := p
  obtain rfl : tok = some kind.token := htok
  cases kind <;> rfl

theorem parseredirs_done {k : ℕ} (cmd : Cmd) (h : headIn [lt,gt] (tokens n s) = false) :
    parseredirs n (k+1) cmd s = .ok (cmd, (peek s [lt,gt]).2) := by
  rw [parseredirs, if_neg]
  rw [peek_tokens n s (by decide), h]
  exact Bool.false_ne_true

theorem parseredirs_sound {k : ℕ} (h : parseredirs n k cmd s = .ok (c, s')) :
    ∃ rs, tokens n s = redirTokens rs++tokens n s' ∧ c = wrapAll rs cmd := by
  induction k generalizing cmd s with
  | zero => cases h
  | succ k ih =>
    cases hhead : headIn [lt,gt] (tokens n s) with
    | false =>
      rw [parseredirs_done cmd hhead] at h
      cases h
      exact ⟨[],(peek_rest n s [lt,gt]).symm,rfl⟩
    | true =>
      obtain ⟨kind,ts,hts⟩ := headIn_redir.mp hhead
      rw [parseredirs_eq k cmd hts] at h
      have h1 := (gettoken_cons ((peek_rest n s [lt,gt]).trans hts)).2
      have h2 := gettoken_tokens n (gettoken n (peek s [lt,gt]).2).2
      rw [h1] at h2
      split at h
      · next q e s2 heq =>
        rw [heq] at h2
        obtain ⟨rs,hrs,hc⟩ := ih h
        refine ⟨⟨kind,⟨q,e⟩⟩::rs,?_,hc⟩
        have hword : ts = .word q e::ts.tail := by
          cases ts with
          | nil => cases h2.1
          | cons t ts => rw [← Option.some.inj h2.1, List.tail_cons]
        have hrest : tokens n s2 = ts.tail := h2.2
        rw [hts, hword, ← hrest, hrs]
        rfl
      · cases h

theorem parseredirs_complete (rs : List Redir) {rest : List Token} {k : ℕ} (cmd : Cmd)
    (h : tokens n s = redirTokens rs++rest) (hrest : headIn [lt,gt] rest = false) (hk : rs.length < k) :
    ∃ s', parseredirs n k cmd s = .ok (wrapAll rs cmd, s') ∧ tokens n s' = rest := by
  induction rs generalizing cmd s k with
  | nil =>
    obtain ⟨k,rfl⟩ : ∃ j, k = j+1 := ⟨k-1,by simp at hk; omega⟩
    refine ⟨_,parseredirs_done cmd ?_,(peek_rest n s [lt,gt]).trans h⟩
    rw [h]
    exact hrest
  | cons r rs ih =>
    obtain ⟨k,rfl⟩ : ∃ j, k = j+1 := ⟨k-1,by omega⟩
    have hts : tokens n s = r.kind.token::(.word r.file.q r.file.eq::(redirTokens rs++rest)) := h
    have h1 := (gettoken_cons ((peek_rest n s [lt,gt]).trans hts)).2
    obtain ⟨h2,h3⟩ := gettoken_cons h1
    rw [parseredirs_eq k cmd hts]
    generalize gettoken n (gettoken n (peek s [lt,gt]).2).2 = p at h2 h3 ⊢
    obtain ⟨tok,s2⟩ := p
    obtain rfl : tok = some (.word r.file.q r.file.eq) := h2
    exact ih (r.wrap cmd) h3 (by simpa using hk)

theorem parseredirs_ends {k : ℕ} (cmd : Cmd) (h : (tokens n s).length < k) :
    Avoids (· = .depth) (parseredirs n k cmd s) := by
  induction k generalizing cmd s with
  | zero => omega
  | succ k ih =>
    cases hhead : headIn [lt,gt] (tokens n s) with
    | false =>
      rw [parseredirs_done cmd hhead]
      exact Avoids.ok _ _
    | true =>
      obtain ⟨kind,ts,hts⟩ := headIn_redir.mp hhead
      have h1 := (gettoken_cons ((peek_rest n s [lt,gt]).trans hts)).2
      have h2 := (gettoken_tokens n (gettoken n (peek s [lt,gt]).2).2).2
      rw [parseredirs_eq k cmd hts]
      split
      · next q e s2 heq =>
        refine ih _ ?_
        rw [heq, h1] at h2
        have hlen : (tokens n s2).length = ts.length-1 := by
          rw [← List.length_tail]
          exact congrArg List.length h2
        rw [hts, List.length_cons] at h
        omega
      · exact Avoids.error (by simp)

theorem parsebacks_eq (k : ℕ) (cmd : Cmd) {ts : List Token} (h : tokens n s = .amp::ts) :
    ∃ s1, parsebacks n (k+1) cmd s = parsebacks n k (.back cmd) s1 ∧ tokens n s1 = ts := by
  refine ⟨_,?_,(gettoken_cons ((peek_rest n s [amp]).trans h)).2⟩
  rw [parsebacks, if_pos]
  rw [peek_tokens n s (by decide), headIn_amp]
  exact ⟨ts,h⟩

theorem parsebacks_done {k : ℕ} (cmd : Cmd) (h : ¬ headIn [amp] (tokens n s) = true) :
    parsebacks n (k+1) cmd s = .ok (cmd, (peek s [amp]).2) := by
  rw [parsebacks, if_neg]
  rw [peek_tokens n s (by decide)]
  exact h

theorem parsebacks_sound {k : ℕ} (h : parsebacks n k cmd s = .ok (c, s')) :
    ∃ j, tokens n s = List.replicate j .amp++tokens n s' ∧ c = backs j cmd := by
  induction k generalizing cmd s with
  | zero => cases h
  | succ k ih =>
    by_cases hhead : headIn [amp] (tokens n s) = true
    · obtain ⟨ts,hts⟩ := headIn_amp.mp hhead
      obtain ⟨s1,heq,hs1⟩ := parsebacks_eq k cmd hts
      rw [heq] at h
      obtain ⟨j,hj,hc⟩ := ih h
      refine ⟨j+1,?_,hc⟩
      rw [hts, ← hs1, hj]
      rfl
    · rw [parsebacks_done cmd hhead] at h
      cases h
      exact ⟨0,(peek_rest n s [amp]).symm,rfl⟩

theorem parsebacks_complete (j : ℕ) {rest : List Token} {k : ℕ} (cmd : Cmd)
    (h : tokens n s = List.replicate j .amp++rest) (hrest : ¬ headIn [amp] rest = true) (hk : j < k) :
    ∃ s', parsebacks n k cmd s = .ok (backs j cmd, s') ∧ tokens n s' = rest := by
  induction j generalizing cmd s k with
  | zero =>
    obtain ⟨k,rfl⟩ : ∃ i, k = i+1 := ⟨k-1,by omega⟩
    refine ⟨_,parsebacks_done cmd ?_,(peek_rest n s [amp]).trans h⟩
    rw [h]
    exact hrest
  | succ j ih =>
    obtain ⟨k,rfl⟩ : ∃ i, k = i+1 := ⟨k-1,by omega⟩
    have hts : tokens n s = .amp::(List.replicate j .amp++rest) := h
    obtain ⟨s1,heq,hs1⟩ := parsebacks_eq k cmd hts
    rw [heq]
    exact ih (.back cmd) hs1 (by omega)

theorem parsebacks_ends {k : ℕ} (cmd : Cmd) (h : (tokens n s).length < k) :
    Avoids (· = .depth) (parsebacks n k cmd s) := by
  induction k generalizing cmd s with
  | zero => omega
  | succ k ih =>
    by_cases hhead : headIn [amp] (tokens n s) = true
    · obtain ⟨ts,hts⟩ := headIn_amp.mp hhead
      obtain ⟨s1,heq,hs1⟩ := parsebacks_eq k cmd hts
      rw [heq]
      refine ih _ ?_
      rw [hts, List.length_cons] at h
      rw [hs1]
      omega
    · rw [parsebacks_done cmd hhead]
      exact Avoids.ok _ _

end Xv6.Shell
