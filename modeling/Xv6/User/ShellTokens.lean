import Xv6.User.Shell

/-!
# The tokens that the shell parser sees

`peek` looks at the first byte of the next token, and `gettoken` returns the next token and
moves behind it. A word is a run of bytes that are neither white nor symbols, and the byte
behind it is none of these.
-/

set_option autoImplicit false

namespace Xv6.Shell

variable {n : ℕ} {b : UInt8} {s : List UInt8}

theorem skip_cons {b : UInt8} {u : List UInt8} (h : s.dropWhile isSpace = b::u) : isSpace b = false := by
  induction s with
  | nil => cases h
  | cons c s ih =>
    rw [List.dropWhile_cons] at h
    split at h
    · exact ih h
    · next hc =>
      cases h
      exact Bool.eq_false_iff.mpr hc

theorem tokens_nil (n : ℕ) : tokens n [] = [] := by rw [tokens]

theorem tokens_space (n : ℕ) (h : isSpace b = true) (s : List UInt8) : tokens n (b::s) = tokens n s := by
  rw [tokens, if_pos h]

theorem tokens_skip (n : ℕ) (s : List UInt8) : tokens n (s.dropWhile isSpace) = tokens n s := by
  induction s with
  | nil => rfl
  | cons b s ih =>
    rw [List.dropWhile_cons]
    split
    · next hb => rw [ih, tokens_space n hb]
    · rfl

theorem word_of_default (hs : isSpace b = false) (hg : b ≠ gt) (hsym : symbolToken b = none) :
    isWord b = true := by
  rw [symbolToken] at hsym
  repeat' split at hsym
  all_goals try cases hsym
  rw [isSpace] at hs
  rw [isWord, hs]
  simp [symbols, *]

theorem symbolToken_gt : symbolToken gt = none := by decide

theorem gettoken_tokens (n : ℕ) (s : List UInt8) :
    (gettoken n s).1 = (tokens n s).head? ∧ tokens n (gettoken n s).2 = (tokens n s).tail := by
  rw [← tokens_skip n s, gettoken]
  cases hs : s.dropWhile isSpace with
  | nil => simp [tokens_nil]
  | cons b u =>
    have hb := skip_cons hs
    have hskip : ¬ isSpace b = true := by simp [hb]
    rw [tokens, if_neg hskip]
    dsimp only
    by_cases hg : b = gt
    · rw [if_pos hg, hg, symbolToken_gt]
      dsimp only
      rw [if_pos rfl]
      split
      · simp [tokens_skip]
      · simp [tokens_skip]
    · cases hsym : symbolToken b with
      | some t =>
        simp [hg, tokens_skip]
      | none =>
        dsimp only
        rw [if_neg hg, if_neg hg, List.dropWhile_cons_of_pos (word_of_default hb hg hsym)]
        simp [tokens_skip]

theorem gettoken_cons {t : Token} {ts : List Token} (h : tokens n s = t::ts) :
    (gettoken n s).1 = some t ∧ tokens n (gettoken n s).2 = ts := by
  have := gettoken_tokens n s
  rwa [h] at this

theorem gettoken_nil (h : tokens n s = []) :
    (gettoken n s).1 = none ∧ tokens n (gettoken n s).2 = [] := by
  have := gettoken_tokens n s
  rwa [h] at this

/-- The first token begins with one of the symbols. -/
def headIn (toks : List UInt8) (ts : List Token) : Bool := (ts.head?.bind Token.byte).any toks.contains

theorem symbolToken_byte {t : Token} (h : symbolToken b = some t) : t.byte = some b := by
  rw [symbolToken] at h
  repeat' split at h
  all_goals cases h
  all_goals simp [Token.byte, *]

theorem peek_tokens (n : ℕ) (s : List UInt8) {toks : List UInt8} (h : toks ⊆ symbols) :
    (peek s toks).1 = headIn toks (tokens n s) := by
  rw [peek, ← tokens_skip n s]
  cases hs : s.dropWhile isSpace with
  | nil => simp [tokens_nil, headIn]
  | cons b u =>
    have hb := skip_cons hs
    have hskip : ¬ isSpace b = true := by simp [hb]
    rw [tokens, if_neg hskip]
    by_cases hg : b = gt
    · rw [if_pos hg, hg]
      split <;> rfl
    · rw [if_neg hg]
      cases hsym : symbolToken b with
      | some t => simp [headIn, symbolToken_byte hsym]
      | none =>
        have hw := word_of_default hb hg hsym
        have hno : b ∉ toks := by
          intro hm
          rw [isWord, Bool.and_eq_true] at hw
          simp [h hm] at hw
        simp [headIn, Token.byte, hno]

theorem peek_rest (n : ℕ) (s toks : List UInt8) : tokens n (peek s toks).2 = tokens n s := tokens_skip n s

/-! ### Words -/

/-- The word lies in the line, and the byte behind it does not belong to any word. -/
structure Cut (line : List UInt8) (q e : ℕ) : Prop where
  nonempty : q < e
  inside : e ≤ line.length
  bytes : ∀ b ∈ (line.drop q).take (e-q), isWord b = true
  behind : ∀ b, (line.drop e).head? = some b → isWord b = false

theorem tokens_cut {line : List UInt8} (hs : s <:+ line) {q e : ℕ}
    (h : Token.word q e ∈ tokens line.length s) : Cut line q e := by
  induction hlen : s.length using Nat.strong_induction_on generalizing s with
  | _ m ih =>
    cases s with
    | nil =>
      rw [tokens_nil] at h
      cases h
    | cons b u =>
      subst hlen
      have hu : u <:+ line := (List.suffix_cons b u).trans hs
      have hlu : u.length < (b::u).length := by simp
      rw [tokens] at h
      split at h
      · exact ih _ hlu hu h rfl
      next hb =>
      split at h
      · split at h
        · rcases List.mem_cons.mp h with h | h
          · cases h
          · refine ih _ ?_ ((List.tail_suffix u).trans hu) h rfl
            rw [List.length_tail, List.length_cons]
            omega
        · rcases List.mem_cons.mp h with h | h
          · cases h
          · exact ih _ hlu hu h rfl
      next hg =>
      split at h
      · next t hsym =>
        rcases List.mem_cons.mp h with h | h
        · rw [← h] at hsym
          have := symbolToken_byte hsym
          cases this
        · exact ih _ hlu hu h rfl
      next hsym =>
      have hw := word_of_default (Bool.eq_false_iff.mpr hb) hg hsym
      have hdrop : u.dropWhile isWord <:+ u := List.dropWhile_suffix isWord
      rcases List.mem_cons.mp h with h | h
      · obtain ⟨pre,rfl⟩ := hs
        have hsplit : u = u.takeWhile isWord++u.dropWhile isWord := (List.takeWhile_append_dropWhile).symm
        have hlen : u.length = (u.takeWhile isWord).length+(u.dropWhile isWord).length := by
          conv_lhs => rw [hsplit]
          exact List.length_append
        injection h with hq he
        have hq' : q = pre.length := by
          rw [hq, List.length_append]
          omega
        have he' : e = pre.length+1+(u.takeWhile isWord).length := by
          rw [he, List.length_append, List.length_cons]
          omega
        have hline : pre++b::u = pre++(b::u.takeWhile isWord)++u.dropWhile isWord := by
          rw [List.append_assoc, List.cons_append, ← hsplit]
        refine ⟨by omega,?_,?_,?_⟩
        · rw [List.length_append, List.length_cons]
          omega
        · have hcut : ((pre++b::u).drop q).take (e-q) = b::u.takeWhile isWord := by
            rw [hline, List.append_assoc, hq', List.drop_left, he']
            refine List.take_left' ?_
            rw [List.length_cons]
            omega
          rw [hcut]
          intro c hc
          rcases List.mem_cons.mp hc with rfl | hc
          · exact hw
          · exact List.all_eq_true.mp List.all_takeWhile c hc
        · intro c hc
          have hrest : (pre++b::u).drop e = u.dropWhile isWord := by
            rw [hline, he']
            refine List.drop_left' ?_
            rw [List.length_append, List.length_cons]
            omega
          have hd := List.head?_dropWhile_not isWord u
          rw [← hrest, hc] at hd
          exact hd
      · refine ih _ ?_ (hdrop.trans hu) h rfl
        have := hdrop.length_le
        rw [List.length_cons]
        omega

end Xv6.Shell
