import Xv6.User.ShellGrammar

/-!
# The shell accepts its grammar

The loop over the words and the four functions that call each other: one induction on the
bound for what they accept and one for the bound itself, and one induction on the
derivation for what they must accept.
-/

set_option autoImplicit false

namespace Xv6.Shell
open Xv6.Halting

variable {n : ℕ} {s s' : List UInt8} {c cmd : Cmd}

/-! ### The words of a simple command -/

/-- What ends a simple command. -/
def stops (ts : List Token) : Bool := ts = [] || headIn [bar,rpar,amp,semi] ts

theorem parseargs_stop (k argc : ℕ) (ret : Cmd) (h : stops (tokens n s) = true) :
    ∃ s', parseargs n (k+1) argc ret s = .ok (ret, s') ∧ tokens n s' = tokens n s := by
  have hpeek : (peek s [bar,rpar,amp,semi]).1 = _ := peek_tokens n s (by decide)
  have hrest := peek_rest n s [bar,rpar,amp,semi]
  rw [parseargs, hpeek]
  cases hts : tokens n s with
  | nil =>
    obtain ⟨h1,h2⟩ := gettoken_nil (hrest.trans hts)
    generalize gettoken n (peek s [bar,rpar,amp,semi]).2 = p at h1 h2 ⊢
    obtain ⟨tok,s1⟩ := p
    obtain rfl : tok = none := h1
    exact ⟨s1,rfl,h2⟩
  | cons t ts =>
    rw [hts] at h hrest
    have hin : headIn [bar,rpar,amp,semi] (t::ts) = true := by simpa [stops] using h
    rw [if_pos hin]
    exact ⟨_,rfl,hrest⟩

theorem parseargs_word (k argc : ℕ) (ret : Cmd) {q e : ℕ} {ts : List Token}
    (h : tokens n s = .word q e::ts) : ∃ s1, tokens n s1 = ts ∧ parseargs n (k+1) argc ret s =
      if MAXARGS ≤ argc+1 then .error (.panic "too many args")
      else parseredirs n k (ret.addArg ⟨q,e⟩) s1 >>= fun t => parseargs n k (argc+1) t.1 t.2 := by
  have hpeek : (peek s [bar,rpar,amp,semi]).1 = _ := peek_tokens n s (by decide)
  obtain ⟨h1,h2⟩ := gettoken_cons ((peek_rest n s [bar,rpar,amp,semi]).trans h)
  rw [parseargs, hpeek, h, if_neg (by simp [headIn, Token.byte])]
  generalize gettoken n (peek s [bar,rpar,amp,semi]).2 = p at h1 h2 ⊢
  obtain ⟨tok,s1⟩ := p
  obtain rfl : tok = some (.word q e) := h1
  exact ⟨s1,h2,rfl⟩

theorem parseargs_other (k argc : ℕ) (ret : Cmd) (hstop : stops (tokens n s) = false)
    (hword : ∀ q e ts, tokens n s ≠ .word q e::ts) :
    parseargs n (k+1) argc ret s = .error (.panic "syntax") := by
  have hpeek : (peek s [bar,rpar,amp,semi]).1 = _ := peek_tokens n s (by decide)
  have hrest := peek_rest n s [bar,rpar,amp,semi]
  rw [parseargs, hpeek]
  cases hts : tokens n s with
  | nil =>
    rw [hts] at hstop
    cases hstop
  | cons t ts =>
    rw [hts] at hstop hrest
    have hin : ¬ headIn [bar,rpar,amp,semi] (t::ts) = true := by simpa [stops] using hstop
    have h1 := (gettoken_cons hrest).1
    rw [if_neg hin]
    generalize gettoken n (peek s [bar,rpar,amp,semi]).2 = p at h1 ⊢
    obtain ⟨tok,s1⟩ := p
    obtain rfl : tok = some t := h1
    cases t with
    | word q e => exact absurd hts (hword q e ts)
    | _ => rfl

theorem args_cases (ts : List Token) : stops ts = true ∨ (∃ q e us, ts = .word q e::us) ∨
    stops ts = false ∧ ∀ q e us, ts ≠ .word q e::us := by
  cases hs : stops ts with
  | true => exact Or.inl rfl
  | false =>
    refine Or.inr ?_
    by_cases hw : ∃ q e us, ts = .word q e::us
    · exact Or.inl hw
    · exact Or.inr ⟨rfl,fun q e us h => hw ⟨q,e,us,h⟩⟩

theorem parseargs_sound {k argc : ℕ} {ret : Cmd} (h : parseargs n k argc ret s = .ok (c, s'))
    (hargc : argc < MAXARGS) : ∃ args, tokens n s = argTokens args++tokens n s' ∧
      c = addArgs args ret ∧ argc+args.length < MAXARGS := by
  induction k generalizing argc ret s with
  | zero => cases h
  | succ k ih =>
    rcases args_cases (tokens n s) with hstop | ⟨q,e,us,hw⟩ | ⟨hstop,hword⟩
    · obtain ⟨s1,heq,hs1⟩ := parseargs_stop k argc ret hstop
      rw [heq] at h
      cases h
      exact ⟨[],hs1.symm,rfl,hargc⟩
    · obtain ⟨s1,hs1,heq⟩ := parseargs_word k argc ret hw
      rw [heq] at h
      split at h
      · cases h
      · next hmax =>
        obtain ⟨⟨ret',s2⟩,hr,hrest⟩ := bind_ok.mp h
        obtain ⟨rs,hrs,rfl⟩ := parseredirs_sound hr
        obtain ⟨args,hargs,hc,hlen⟩ := ih hrest (by omega)
        refine ⟨(⟨q,e⟩,rs)::args,?_,hc,by rw [List.length_cons]; omega⟩
        rw [hw, ← hs1, hrs, hargs]
        simp [argTokens]
    · rw [parseargs_other k argc ret hstop hword] at h
      cases h

theorem headIn_stops {ts : List Token} (h : stops ts = true) : headIn [lt,gt] ts = false := by
  cases ts with
  | nil => rfl
  | cons t us =>
    cases t with
    | lt => cases h
    | gt => cases h
    | append => cases h
    | _ => rfl

theorem argTokens_head (args : List (Word × List Redir)) {rest : List Token}
    (h : stops rest = true) : headIn [lt,gt] (argTokens args++rest) = false := by
  cases args with
  | nil => exact headIn_stops h
  | cons a args => rfl

theorem length_redirTokens (rs : List Redir) : (redirTokens rs).length = 2*rs.length := by
  induction rs with
  | nil => rfl
  | cons r rs ih =>
    rw [List.length_cons, Nat.mul_succ, ← ih]
    rfl

theorem parseargs_complete (args : List (Word × List Redir)) {rest : List Token} {k : ℕ} (argc : ℕ)
    (ret : Cmd) (h : tokens n s = argTokens args++rest) (hrest : stops rest = true)
    (hargc : argc+args.length < MAXARGS) (hk : (tokens n s).length < k) :
    ∃ s', parseargs n k argc ret s = .ok (addArgs args ret, s') ∧ tokens n s' = rest := by
  induction args generalizing argc ret s k with
  | nil =>
    obtain ⟨k,rfl⟩ : ∃ j, k = j+1 := ⟨k-1,by omega⟩
    have hts : tokens n s = rest := h
    obtain ⟨s1,heq,hs1⟩ := parseargs_stop k argc ret (by rw [hts]; exact hrest)
    exact ⟨s1,heq,hs1.trans hts⟩
  | cons a args ih =>
    obtain ⟨k,rfl⟩ : ∃ j, k = j+1 := ⟨k-1,by omega⟩
    have hts : tokens n s = .word a.1.q a.1.eq::(redirTokens a.2++(argTokens args++rest)) := by
      rw [h]
      simp [argTokens]
    rw [List.length_cons] at hargc
    rw [hts, List.length_cons, List.length_append, length_redirTokens] at hk
    obtain ⟨s1,hs1,heq⟩ := parseargs_word k argc ret hts
    obtain ⟨s2,hr,hs2⟩ := parseredirs_complete a.2 (ret.addArg a.1) hs1 (argTokens_head args hrest)
      (show a.2.length < k by omega)
    rw [heq, if_neg (by omega), hr, ok_bind]
    refine ih _ _ hs2 (by omega) ?_
    rw [hs2]
    omega

theorem parseargs_ends {k argc : ℕ} (ret : Cmd) (h : (tokens n s).length < k) :
    Avoids (· = .depth) (parseargs n k argc ret s) := by
  induction k generalizing argc ret s with
  | zero => omega
  | succ k ih =>
    rcases args_cases (tokens n s) with hstop | ⟨q,e,us,hw⟩ | ⟨hstop,hword⟩
    · obtain ⟨s1,heq,-⟩ := parseargs_stop k argc ret hstop
      rw [heq]
      exact Avoids.ok _ _
    · obtain ⟨s1,hs1,heq⟩ := parseargs_word k argc ret hw
      rw [hw, List.length_cons] at h
      rw [heq]
      split
      · exact Avoids.error (by simp)
      · refine (parseredirs_ends _ (by rw [hs1]; omega)).bind fun t ht => ih _ ?_
        obtain ⟨rs,hrs,-⟩ := parseredirs_sound ht
        rw [← hs1, hrs, List.length_append] at h
        omega
    · rw [parseargs_other k argc ret hstop hword]
      exact Avoids.error (by simp)

/-! ### What is accepted -/

/-- What the four functions accept within a bound has a derivation. -/
structure Sound (n k : ℕ) : Prop where
  line : ∀ s c s', parseline n k s = .ok (c, s') → ∃ ts, tokens n s = ts++tokens n s' ∧ Derives .line ts c
  pipe : ∀ s c s', parsepipe n k s = .ok (c, s') → ∃ ts, tokens n s = ts++tokens n s' ∧ Derives .pipe ts c
  exec : ∀ s c s', parseexec n k s = .ok (c, s') → ∃ ts, tokens n s = ts++tokens n s' ∧ Derives .exec ts c
  block : ∀ s c s', parseblock n k s = .ok (c, s') → ∃ ts, tokens n s = ts++tokens n s' ∧ Derives .exec ts c

theorem sound_line {k : ℕ} (h : Sound n k) (hrun : parseline n (k+1) s = .ok (c, s')) :
    ∃ ts, tokens n s = ts++tokens n s' ∧ Derives .line ts c := by
  rw [parseline] at hrun
  obtain ⟨⟨c1,s1⟩,h1,hrun⟩ := bind_ok.mp hrun
  obtain ⟨⟨c2,s2⟩,h2,hrun⟩ := bind_ok.mp hrun
  obtain ⟨ts,hts,hd⟩ := h.pipe _ _ _ h1
  obtain ⟨j,hj,rfl⟩ := parsebacks_sound h2
  dsimp only at hrun
  split at hrun
  · next hpeek =>
    rw [peek_tokens n s2 (by decide)] at hpeek
    obtain ⟨us,hus⟩ := headIn_semi.mp hpeek
    obtain ⟨⟨c3,s3⟩,h3,hrun⟩ := bind_ok.mp hrun
    cases hrun
    obtain ⟨vs,hvs,hd'⟩ := h.line _ _ _ h3
    rw [(gettoken_cons ((peek_rest n s2 [semi]).trans hus)).2] at hvs
    refine ⟨_,?_,Derives.list hd j hd'⟩
    rw [hts, hj, hus, hvs]
    simp
  · cases hrun
    refine ⟨_,?_,Derives.last hd j⟩
    rw [hts, hj, peek_rest, List.append_assoc]

theorem sound_pipe {k : ℕ} (h : Sound n k) (hrun : parsepipe n (k+1) s = .ok (c, s')) :
    ∃ ts, tokens n s = ts++tokens n s' ∧ Derives .pipe ts c := by
  rw [parsepipe] at hrun
  obtain ⟨⟨c1,s1⟩,h1,hrun⟩ := bind_ok.mp hrun
  obtain ⟨ts,hts,hd⟩ := h.exec _ _ _ h1
  dsimp only at hrun
  split at hrun
  · next hpeek =>
    rw [peek_tokens n s1 (by decide)] at hpeek
    obtain ⟨us,hus⟩ := headIn_bar.mp hpeek
    obtain ⟨⟨c3,s3⟩,h3,hrun⟩ := bind_ok.mp hrun
    cases hrun
    obtain ⟨vs,hvs,hd'⟩ := h.pipe _ _ _ h3
    rw [(gettoken_cons ((peek_rest n s1 [bar]).trans hus)).2] at hvs
    refine ⟨_,?_,Derives.pipe hd hd'⟩
    rw [hts, hus, hvs]
    simp
  · cases hrun
    refine ⟨_,?_,Derives.one hd⟩
    rw [hts, peek_rest]

theorem sound_exec {k : ℕ} (h : Sound n k) (hrun : parseexec n (k+1) s = .ok (c, s')) :
    ∃ ts, tokens n s = ts++tokens n s' ∧ Derives .exec ts c := by
  rw [parseexec] at hrun
  split at hrun
  · obtain ⟨ts,hts,hd⟩ := h.block _ _ _ hrun
    exact ⟨ts,by rw [← hts, peek_rest],hd⟩
  · obtain ⟨⟨c1,s1⟩,h1,hrun⟩ := bind_ok.mp hrun
    obtain ⟨rs,hrs,rfl⟩ := parseredirs_sound h1
    obtain ⟨args,hargs,rfl,hlen⟩ := parseargs_sound hrun (by decide)
    refine ⟨redirTokens rs++argTokens args,?_,?_⟩
    · rw [← peek_rest n s [lpar], hrs, hargs, List.append_assoc]
    · rw [addArgs_eq]
      exact Derives.simple rs args (by omega)

theorem sound_block {k : ℕ} (h : Sound n k) (hrun : parseblock n (k+1) s = .ok (c, s')) :
    ∃ ts, tokens n s = ts++tokens n s' ∧ Derives .exec ts c := by
  rw [parseblock] at hrun
  split at hrun
  · next hpeek =>
    rw [peek_tokens n s (by decide)] at hpeek
    obtain ⟨us,hus⟩ := headIn_lpar.mp hpeek
    obtain ⟨⟨c1,s1⟩,h1,hrun⟩ := bind_ok.mp hrun
    obtain ⟨ts,hts,hd⟩ := h.line _ _ _ h1
    rw [(gettoken_cons ((peek_rest n s [lpar]).trans hus)).2] at hts
    dsimp only at hrun
    split at hrun
    · next hpeek' =>
      rw [peek_tokens n s1 (by decide)] at hpeek'
      obtain ⟨vs,hvs⟩ := headIn_rpar.mp hpeek'
      obtain ⟨rs,hrs,rfl⟩ := parseredirs_sound hrun
      rw [(gettoken_cons ((peek_rest n s1 [rpar]).trans hvs)).2] at hrs
      refine ⟨_,?_,Derives.block hd rs⟩
      rw [hus, hts, hvs, hrs]
      simp
    · cases hrun
  · cases hrun

theorem parse_sound (n k : ℕ) : Sound n k := by
  induction k with
  | zero =>
    refine ⟨fun s c s' h => ?_,fun s c s' h => ?_,fun s c s' h => ?_,fun s c s' h => ?_⟩
    · rw [parseline] at h
      cases h
    · rw [parsepipe] at h
      cases h
    · rw [parseexec] at h
      cases h
    · rw [parseblock] at h
      cases h
  | succ k ih =>
    exact ⟨fun _ _ _ => sound_line ih,fun _ _ _ => sound_pipe ih,fun _ _ _ => sound_exec ih,
      fun _ _ _ => sound_block ih⟩

end Xv6.Shell
