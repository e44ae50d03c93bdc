import Xv6.User.ShellParse

/-!
# The shell rejects nothing of its grammar

A derivation is found when what follows it can follow its nonterminal, by induction on the
derivation, and every line is accepted or refused before the bound on the depth is reached.
-/

set_option autoImplicit false

namespace Xv6.Shell
open Xv6.Halting

variable {n : ℕ} {s s' : List UInt8} {c cmd : Cmd}

def Nonterminal.parse (n : ℕ) : Nonterminal → ℕ → List UInt8 → Except Stop (Cmd × List UInt8)
  | .line => parseline n
  | .pipe => parsepipe n
  | .exec => parseexec n

/-- The tokens that can stand behind. -/
def Nonterminal.follow : Nonterminal → List UInt8
  | .line => [rpar]
  | .pipe => [rpar,amp,semi]
  | .exec => [bar,rpar,amp,semi]

def Nonterminal.Follows (nt : Nonterminal) (ts : List Token) : Prop :=
  ts = [] ∨ headIn nt.follow ts = true

/-- The depth that is needed beyond the four calls for each token. -/
def Nonterminal.depth : Nonterminal → ℕ
  | .line => 4
  | .pipe => 3
  | .exec => 2

theorem headIn_apart {x y : List UInt8} (h : x ∩ y = []) {ts : List Token}
    (hy : ts = [] ∨ headIn y ts = true) : ¬ headIn x ts = true := by
  rcases hy with rfl | hy
  · simp [headIn]
  · intro hx
    rw [headIn, Option.any_eq_true] at hx hy
    obtain ⟨b,hb,hbx⟩ := hx
    obtain ⟨b',hb',hby⟩ := hy
    rw [hb] at hb'
    cases hb'
    have hmem : b ∈ x ∩ y := List.mem_inter_iff.mpr ⟨by simpa using hbx,by simpa using hby⟩
    rw [h] at hmem
    cases hmem

theorem headIn_mono {x y : List UInt8} (h : x ⊆ y) {ts : List Token}
    (hx : headIn x ts = true) : headIn y ts = true := by
  rw [headIn, Option.any_eq_true] at hx ⊢
  obtain ⟨b,hb,hbx⟩ := hx
  exact ⟨b,hb,by simpa using h (by simpa using hbx)⟩

theorem follows_stops {ts : List Token} (h : Nonterminal.exec.Follows ts) : stops ts = true := by
  rw [stops, Bool.or_eq_true, decide_eq_true_eq]
  exact h

theorem peek_false {toks : List UInt8} (h : toks ⊆ symbols) {ts : List Token}
    (hts : tokens n s = ts) (hno : ¬ headIn toks ts = true) : ¬ (peek s toks).1 = true := by
  rw [peek_tokens n s h, hts]
  exact hno

theorem peek_true (toks : List UInt8) (h : toks ⊆ symbols) {t : Token} {ts : List Token}
    (hts : tokens n s = t::ts) (ht : headIn toks (t::ts) = true) :
    (peek s toks).1 = true ∧ tokens n (gettoken n (peek s toks).2).2 = ts :=
  ⟨by rw [peek_tokens n s h, hts, ht],(gettoken_cons ((peek_rest n s toks).trans hts)).2⟩

theorem simple_head (rs : List Redir) (args : List (Word × List Redir)) {rest : List Token}
    (h : Nonterminal.exec.Follows rest) : ¬ headIn [lpar] (redirTokens rs++(argTokens args++rest)) = true := by
  cases rs with
  | nil =>
    cases args with
    | nil => exact headIn_apart (by decide) h
    | cons a args => simp [redirTokens, argTokens, headIn, Token.byte]
  | cons r rs =>
    have hr : (redirTokens (r::rs)++(argTokens args++rest)).head? = some r.kind.token := rfl
    rw [headIn, hr]
    cases r.kind <;> decide

/-- The function of the nonterminal finds the derivation of `ts` with the tree `c`. -/
def Found (n : ℕ) (nt : Nonterminal) (ts : List Token) (c : Cmd) : Prop :=
  ∀ (s : List UInt8) (rest : List Token) (k : ℕ), tokens n s = ts++rest → nt.Follows rest →
    4*(tokens n s).length+nt.depth ≤ k → ∃ s', nt.parse n k s = .ok (c, s') ∧ tokens n s' = rest

variable {ts us : List Token} {d : Cmd}

theorem found_simple (rs : List Redir) (args : List (Word × List Redir)) (h : args.length ≤ MAXARGS-1) :
    Found n .exec (redirTokens rs++argTokens args)
      (wrapAll (rs++args.flatMap Prod.snd) (.exec (args.map Prod.fst))) := by
  intro s rest k hs hrest hk
  change 4*(tokens n s).length+2 ≤ k at hk
  obtain ⟨k,rfl⟩ : ∃ j, k = j+1 := ⟨k-1,by omega⟩
  have hstop := follows_stops hrest
  rw [List.append_assoc] at hs
  have hlen : (tokens n s).length = 2*rs.length+(argTokens args++rest).length := by
    rw [hs, List.length_append, length_redirTokens]
  obtain ⟨s1,hr,hs1⟩ := parseredirs_complete rs (.exec []) ((peek_rest n s [lpar]).trans hs)
    (argTokens_head args hstop) (show rs.length < k by omega)
  obtain ⟨s2,ha,hs2⟩ := parseargs_complete args 0 (wrapAll rs (.exec [])) hs1 hstop
    (by unfold MAXARGS at *; omega) (show (tokens n s1).length < k by rw [hs1]; omega)
  refine ⟨s2,?_,hs2⟩
  change parseexec n (k+1) s = _
  rw [parseexec, if_neg (peek_false (by decide) hs (simple_head rs args hrest)), hr, ok_bind]
  rw [addArgs_eq] at ha
  exact ha

theorem found_block (h : Found n .line ts c) (rs : List Redir) :
    Found n .exec (.lpar::(ts++.rpar::redirTokens rs)) (wrapAll rs c) := by
  intro s rest k hs hrest hk
  change 4*(tokens n s).length+2 ≤ k at hk
  have hs' : tokens n s = .lpar::(ts++(.rpar::(redirTokens rs++rest))) := by
    rw [hs]
    simp
  have hlen : (tokens n s).length = ts.length+(2*rs.length+rest.length)+2 := by
    rw [hs', List.length_cons, List.length_append, List.length_cons, List.length_append, length_redirTokens]
    omega
  obtain ⟨k,rfl⟩ : ∃ j, k = j+2 := ⟨k-2,by omega⟩
  have hpeek := (peek_true [lpar] (by decide) hs' rfl).1
  obtain ⟨hpeek2,hget⟩ := peek_true [lpar] (by decide) ((peek_rest n s [lpar]).trans hs') rfl
  obtain ⟨s1,hl,hs1⟩ := h _ _ k hget (.inr rfl) (by
    rw [hget, List.length_append, List.length_cons, List.length_append, length_redirTokens]
    change _+4 ≤ k
    omega)
  obtain ⟨hpeek3,hget3⟩ := peek_true [rpar] (by decide) hs1 rfl
  obtain ⟨s2,hr,hs2⟩ := parseredirs_complete rs c hget3 (headIn_stops (follows_stops hrest))
    (show rs.length < k by omega)
  refine ⟨s2,?_,hs2⟩
  change parseexec n (k+2) s = _
  change parseline n k _ = _ at hl
  rw [parseexec, if_pos hpeek, parseblock, if_pos hpeek2, hl, ok_bind]
  dsimp only
  rw [if_pos hpeek3]
  exact hr

theorem found_one (h : Found n .exec ts c) : Found n .pipe ts c := by
  intro s rest k hs hrest hk
  change 4*(tokens n s).length+3 ≤ k at hk
  obtain ⟨k,rfl⟩ : ∃ j, k = j+1 := ⟨k-1,by omega⟩
  obtain ⟨s1,he,hs1⟩ := h s rest k hs (hrest.imp_right (headIn_mono (by decide))) (by change _+2 ≤ k; omega)
  refine ⟨_,?_,(peek_rest n s1 [bar]).trans hs1⟩
  change parsepipe n (k+1) s = _
  change parseexec n k s = _ at he
  rw [parsepipe, he, ok_bind]
  dsimp only
  rw [if_neg (peek_false (by decide) hs1 (headIn_apart (by decide) hrest))]

theorem found_pipe (h : Found n .exec ts c) (h' : Found n .pipe us d) :
    Found n .pipe (ts++.bar::us) (.pipe c d) := by
  intro s rest k hs hrest hk
  change 4*(tokens n s).length+3 ≤ k at hk
  obtain ⟨k,rfl⟩ : ∃ j, k = j+1 := ⟨k-1,by omega⟩
  have hs' : tokens n s = ts++(.bar::(us++rest)) := by
    rw [hs]
    simp
  have hlen : (us++rest).length < (tokens n s).length := by
    rw [hs', List.length_append, List.length_append, List.length_cons, List.length_append]
    omega
  obtain ⟨s1,he,hs1⟩ := h s _ k hs' (.inr rfl) (by change _+2 ≤ k; omega)
  obtain ⟨hpeek,hget⟩ := peek_true [bar] (by decide) hs1 rfl
  obtain ⟨s2,hp,hs2⟩ := h' _ rest k hget hrest (by rw [hget]; change _+3 ≤ k; omega)
  refine ⟨s2,?_,hs2⟩
  change parsepipe n (k+1) s = _
  change parseexec n k s = _ at he
  change parsepipe n k _ = _ at hp
  rw [parsepipe, he, ok_bind]
  dsimp only
  rw [if_pos hpeek, hp, ok_bind]

theorem found_backs (h : Found n .pipe ts c) (j : ℕ) {rest : List Token} {k : ℕ}
    (hs : tokens n s = ts++(List.replicate j .amp++rest)) (hrest : rest = [] ∨ headIn [rpar,semi] rest = true)
    (hk : 4*(tokens n s).length+3 ≤ k) :
    ∃ s1 s2, parsepipe n k s = .ok (c, s1) ∧ parsebacks n k c s1 = .ok (backs j c, s2) ∧
      tokens n s2 = rest := by
  have hfollow : Nonterminal.pipe.Follows (List.replicate j .amp++rest) := by
    cases j with
    | zero => exact hrest.imp_right (headIn_mono (by decide))
    | succ j => exact .inr rfl
  obtain ⟨s1,hp,hs1⟩ := h s _ k hs hfollow hk
  obtain ⟨s2,hb,hs2⟩ := parsebacks_complete j c hs1 (headIn_apart (by decide) hrest) (show j < k by
    rw [hs, List.length_append, List.length_append, List.length_replicate] at hk
    omega)
  exact ⟨s1,s2,hp,hb,hs2⟩

theorem found_last (h : Found n .pipe ts c) (j : ℕ) :
    Found n .line (ts++List.replicate j .amp) (backs j c) := by
  intro s rest k hs hrest hk
  change 4*(tokens n s).length+4 ≤ k at hk
  obtain ⟨k,rfl⟩ : ∃ j, k = j+1 := ⟨k-1,by omega⟩
  rw [List.append_assoc] at hs
  obtain ⟨s1,s2,hp,hb,hs2⟩ := found_backs h j hs (hrest.imp_right (headIn_mono (by decide)))
    (show _ ≤ k by omega)
  refine ⟨_,?_,(peek_rest n s2 [semi]).trans hs2⟩
  change parseline n (k+1) s = _
  rw [parseline, hp, ok_bind]
  dsimp only
  rw [hb, ok_bind]
  dsimp only
  rw [if_neg (peek_false (by decide) hs2 (headIn_apart (by decide) hrest))]

theorem found_list (h : Found n .pipe ts c) (j : ℕ) (h' : Found n .line us d) :
    Found n .line (ts++(List.replicate j .amp++.semi::us)) (.list (backs j c) d) := by
  intro s rest k hs hrest hk
  change 4*(tokens n s).length+4 ≤ k at hk
  obtain ⟨k,rfl⟩ : ∃ j, k = j+1 := ⟨k-1,by omega⟩
  have hs' : tokens n s = ts++(List.replicate j .amp++(.semi::(us++rest))) := by
    rw [hs]
    simp
  have hlen : (us++rest).length < (tokens n s).length := by
    rw [hs', List.length_append, List.length_append, List.length_append, List.length_cons, List.length_append]
    omega
  obtain ⟨s1,s2,hp,hb,hs2⟩ := found_backs h j hs' (.inr rfl) (show _ ≤ k by omega)
  obtain ⟨hpeek,hget⟩ := peek_true [semi] (by decide) hs2 rfl
  obtain ⟨s3,hl,hs3⟩ := h' _ rest k hget hrest (by rw [hget]; change _+4 ≤ k; omega)
  refine ⟨s3,?_,hs3⟩
  change parseline n (k+1) s = _
  change parseline n k _ = _ at hl
  rw [parseline, hp, ok_bind]
  dsimp only
  rw [hb, ok_bind]
  dsimp only
  rw [if_pos hpeek, hl, ok_bind]

theorem parse_complete {nt : Nonterminal} (h : Derives nt ts c) : Found n nt ts c := by
  induction h with
  | simple rs args hargs => exact found_simple rs args hargs
  | block _ rs ih => exact found_block ih rs
  | one _ ih => exact found_one ih
  | pipe _ _ ih ih' => exact found_pipe ih ih'
  | last _ j ih => exact found_last ih j
  | list _ j _ ih ih' => exact found_list ih j ih'

/-! ### The bound -/

/-- Within the bound the functions accept or refuse. -/
structure Ends (n k : ℕ) : Prop where
  line : ∀ s, 4*(tokens n s).length+4 ≤ k → Avoids (· = .depth) (parseline n k s)
  pipe : ∀ s, 4*(tokens n s).length+3 ≤ k → Avoids (· = .depth) (parsepipe n k s)
  exec : ∀ s, 4*(tokens n s).length+2 ≤ k → Avoids (· = .depth) (parseexec n k s)
  block : ∀ s, 4*(tokens n s).length+1 ≤ k → Avoids (· = .depth) (parseblock n k s)

theorem ends_line {k : ℕ} (h : Ends n k) (hk : 4*(tokens n s).length+4 ≤ k+1) :
    Avoids (· = .depth) (parseline n (k+1) s) := by
  rw [parseline]
  refine (h.pipe s (by omega)).bind fun t ht => ?_
  obtain ⟨ts,hts,-⟩ := (parse_sound n k).pipe _ _ _ ht
  rw [hts, List.length_append] at hk
  refine (parsebacks_ends t.1 (show _ < k by omega)).bind fun u hu => ?_
  obtain ⟨j,hj,-⟩ := parsebacks_sound hu
  rw [hj, List.length_append] at hk
  dsimp only
  split
  · next hpeek =>
    rw [peek_tokens n u.2 (by decide)] at hpeek
    obtain ⟨us,hus⟩ := headIn_semi.mp hpeek
    rw [hus, List.length_cons] at hk
    refine (h.line _ ?_).bind fun v _ => Avoids.ok _ _
    rw [(gettoken_cons ((peek_rest n u.2 [semi]).trans hus)).2]
    omega
  · exact Avoids.ok _ _

theorem ends_pipe {k : ℕ} (h : Ends n k) (hk : 4*(tokens n s).length+3 ≤ k+1) :
    Avoids (· = .depth) (parsepipe n (k+1) s) := by
  rw [parsepipe]
  refine (h.exec s (by omega)).bind fun t ht => ?_
  obtain ⟨ts,hts,-⟩ := (parse_sound n k).exec _ _ _ ht
  rw [hts, List.length_append] at hk
  dsimp only
  split
  · next hpeek =>
    rw [peek_tokens n t.2 (by decide)] at hpeek
    obtain ⟨us,hus⟩ := headIn_bar.mp hpeek
    rw [hus, List.length_cons] at hk
    refine (h.pipe _ ?_).bind fun v _ => Avoids.ok _ _
    rw [(gettoken_cons ((peek_rest n t.2 [bar]).trans hus)).2]
    omega
  · exact Avoids.ok _ _

theorem ends_exec {k : ℕ} (h : Ends n k) (hk : 4*(tokens n s).length+2 ≤ k+1) :
    Avoids (· = .depth) (parseexec n (k+1) s) := by
  have hrest := peek_rest n s [lpar]
  rw [parseexec]
  split
  · exact h.block _ (by rw [hrest]; omega)
  · refine (parseredirs_ends _ (by rw [hrest]; omega)).bind fun t ht => ?_
    obtain ⟨rs,hrs,-⟩ := parseredirs_sound ht
    rw [hrest] at hrs
    rw [hrs, List.length_append] at hk
    exact parseargs_ends _ (by omega)

theorem ends_block {k : ℕ} (h : Ends n k) (hk : 4*(tokens n s).length+1 ≤ k+1) :
    Avoids (· = .depth) (parseblock n (k+1) s) := by
  rw [parseblock]
  split
  · next hpeek =>
    rw [peek_tokens n s (by decide)] at hpeek
    obtain ⟨us,hus⟩ := headIn_lpar.mp hpeek
    have hget := (gettoken_cons ((peek_rest n s [lpar]).trans hus)).2
    rw [hus, List.length_cons] at hk
    refine (h.line _ (by rw [hget]; omega)).bind fun t ht => ?_
    obtain ⟨ts,hts,-⟩ := (parse_sound n k).line _ _ _ ht
    rw [hget] at hts
    rw [hts, List.length_append] at hk
    dsimp only
    split
    · refine parseredirs_ends _ ?_
      have := (gettoken_tokens n (peek t.2 [rpar]).2).2
      rw [this, List.length_tail, peek_rest]
      omega
    · exact Avoids.error (by simp)
  · exact Avoids.error (by simp)

theorem parse_ends (n k : ℕ) : Ends n k := by
  induction k with
  | zero => exact ⟨fun _ h => by omega,fun _ h => by omega,fun _ h => by omega,fun _ h => by omega⟩
  | succ k ih => exact ⟨fun _ => ends_line ih,fun _ => ends_pipe ih,fun _ => ends_exec ih,fun _ => ends_block ih⟩

theorem tokens_length (n : ℕ) (s : List UInt8) : (tokens n s).length ≤ s.length := by
  induction hlen : s.length using Nat.strong_induction_on generalizing s with
  | _ m ih =>
    cases s with
    | nil => simp [tokens_nil]
    | cons b u =>
      rw [List.length_cons] at hlen
      have hu := ih u.length (by omega) u rfl
      have htail := ih u.tail.length (by rw [List.length_tail]; omega) u.tail rfl
      have hdrop := (List.dropWhile_sublist (l := u) isWord).length_le
      have hword := ih (u.dropWhile isWord).length (by omega) _ rfl
      rw [List.length_tail] at htail
      rw [tokens]
      split
      · omega
      split
      · split <;> rw [List.length_cons] <;> omega
      split <;> rw [List.length_cons] <;> omega

theorem line_done (n : ℕ) (s : List UInt8) : (peek s []).2 = [] ↔ tokens n s = [] := by
  rw [← peek_rest n s []]
  constructor
  · intro h
    rw [h, tokens_nil]
  · intro h
    by_contra hne
    obtain ⟨b,u,hbu⟩ := List.exists_cons_of_ne_nil hne
    have hb : isSpace b = false := skip_cons hbu
    rw [hbu, tokens, if_neg (by simp [hb])] at h
    split at h
    · split at h <;> cases h
    · split at h <;> cases h

theorem parsecmd_derives {line : List UInt8} (h : parsecmd line = .ok c) :
    Derives .line (tokens line.length line) c := by
  rw [parsecmd] at h
  obtain ⟨⟨cmd,s⟩,hrun,h⟩ := bind_ok.mp h
  dsimp only at h
  split at h
  · next hs =>
    cases h
    obtain ⟨ts,hts,hd⟩ := (parse_sound _ _).line _ _ _ hrun
    rw [(line_done _ s).mp hs, List.append_nil] at hts
    rw [hts]
    exact hd
  · cases h

/-- The shell accepts a line with a tree when the tokens of the line derive the tree, and
refuses every other line. -/
theorem shell_accepts_grammar (line : List UInt8) :
    (∀ c, parsecmd line = .ok c ↔ Derives .line (tokens line.length line) c) ∧
      (∀ e, parsecmd line = .error e → ∃ msg, e = .panic msg) := by
  have hk : 4*(tokens line.length line).length+4 ≤ 4*line.length+4 := by
    have := tokens_length line.length line
    omega
  refine ⟨fun c => ⟨parsecmd_derives,fun h => ?_⟩,fun e h => ?_⟩
  · obtain ⟨s,hrun,hs⟩ := parse_complete h line [] _ (List.append_nil _).symm (.inl rfl) hk
    change parseline line.length (4*line.length+4) line = _ at hrun
    rw [parsecmd, hrun, ok_bind]
    dsimp only
    rw [if_pos ((line_done _ s).mpr hs)]
  · have havoid : Avoids (· = .depth) (parsecmd line) := by
      rw [parsecmd]
      refine ((parse_ends _ _).line line hk).bind fun t _ => ?_
      dsimp only
      split
      · exact Avoids.ok _ _
      · exact Avoids.error (by simp)
    cases e with
    | panic msg => exact ⟨msg,rfl⟩
    | depth => exact absurd rfl (havoid _ h)

end Xv6.Shell
