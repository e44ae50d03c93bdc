import Xv6.User.ShellAccept

/-!
# The strings of an accepted line

`nulterminate` writes a zero behind every word and file of the tree. All of them lie in the
one buffer of the line, so that no word is cut depends on what the byte behind a token is:
white, a symbol or the end of the line, and never a byte of another word.
-/

set_option autoImplicit false

namespace Xv6.Shell

def nulterminate : Cmd → List UInt8 → List UInt8
  | .exec argv, buf => argv.foldl (fun buf w => buf.set w.eq 0) buf
  | .redir cmd file _ _, buf => (nulterminate cmd buf).set file.eq 0
  | .pipe left right, buf => nulterminate right (nulterminate left buf)
  | .list left right, buf => nulterminate right (nulterminate left buf)
  | .back cmd, buf => nulterminate cmd buf

/-- The entries of `argv` and the files of the tree. -/
def Cmd.words : Cmd → List Word
  | .exec argv => argv
  | .redir cmd file _ _ => cmd.words++[file]
  | .pipe left right => left.words++right.words
  | .list left right => left.words++right.words
  | .back cmd => cmd.words

/-- The C string that starts at an offset of the buffer. -/
def stringAt (buf : List UInt8) (q : ℕ) : List UInt8 := (buf.drop q).takeWhile (· != 0)

def Word.bytes (w : Word) (line : List UInt8) : List UInt8 := (line.drop w.q).take (w.eq-w.q)

def Word.token (w : Word) : Token := .word w.q w.eq

theorem nulterminate_eq (c : Cmd) (buf : List UInt8) :
    nulterminate c buf = c.words.foldl (fun buf w => buf.set w.eq 0) buf := by
  induction c generalizing buf with
  | exec argv => rfl
  | redir cmd file mode fd ih => rw [nulterminate, ih, Cmd.words, List.foldl_append]; rfl
  | pipe left right ihl ihr => rw [nulterminate, ihl, ihr, Cmd.words, List.foldl_append]
  | list left right ihl ihr => rw [nulterminate, ihl, ihr, Cmd.words, List.foldl_append]
  | back cmd ih => exact ih buf

/-! ### The words of the tree are tokens of the line -/

theorem words_wrapAll (rs : List Redir) (c : Cmd) :
    (wrapAll rs c).words = c.words++rs.map Redir.file := by
  induction rs generalizing c with
  | nil => simp [wrapAll]
  | cons r rs ih =>
    have hr : (r.wrap c).words = c.words++[r.file] := by
      rw [Redir.wrap]
      cases r.kind <;> rfl
    change (wrapAll rs (r.wrap c)).words = _
    rw [ih, hr, List.append_assoc]
    rfl

theorem words_backs (j : ℕ) (c : Cmd) : (backs j c).words = c.words := by
  induction j generalizing c with
  | zero => rfl
  | succ j ih => exact ih (.back c)

theorem file_redirTokens {rs : List Redir} {r : Redir} (h : r ∈ rs) : r.file.token ∈ redirTokens rs :=
  List.mem_flatMap.mpr ⟨r,h,by simp [Word.token]⟩

theorem words_tokens {nt : Nonterminal} {ts : List Token} {c : Cmd} (h : Derives nt ts c) :
    ∀ w ∈ c.words, w.token ∈ ts := by
  induction h with
  | simple rs args _ =>
    intro w hw
    rw [words_wrapAll, List.mem_append, List.map_append, List.mem_append] at hw
    rw [List.mem_append]
    rcases hw with hw | hw | hw
    · obtain ⟨a,ha,rfl⟩ := List.mem_map.mp hw
      exact .inr (List.mem_flatMap.mpr ⟨a,ha,List.mem_cons_self⟩)
    · obtain ⟨r,hr,rfl⟩ := List.mem_map.mp hw
      exact .inl (file_redirTokens hr)
    · obtain ⟨r,hr,rfl⟩ := List.mem_map.mp hw
      obtain ⟨a,ha,hra⟩ := List.mem_flatMap.mp hr
      exact .inr (List.mem_flatMap.mpr ⟨a,ha,List.mem_cons_of_mem _ (file_redirTokens hra)⟩)
  | block _ rs ih =>
    intro w hw
    rw [words_wrapAll, List.mem_append] at hw
    rcases hw with hw | hw
    · simp [ih w hw]
    · obtain ⟨r,hr,rfl⟩ := List.mem_map.mp hw
      simp [file_redirTokens hr]
  | one _ ih => exact ih
  | pipe _ _ ih ih' =>
    intro w hw
    rcases List.mem_append.mp hw with hw | hw
    · simp [ih w hw]
    · simp [ih' w hw]
  | last _ j ih =>
    intro w hw
    rw [words_backs] at hw
    simp [ih w hw]
  | list _ j _ ih ih' =>
    intro w hw
    rcases List.mem_append.mp hw with hw | hw
    · rw [words_backs] at hw
      simp [ih w hw]
    · simp [ih' w hw]

/-! ### The writes -/

theorem stringAt_of {buf x : List UInt8} (rest : List UInt8) {q : ℕ} (h : buf.drop q = x++0::rest) (hx : 0 ∉ x) :
    stringAt buf q = x := by
  rw [stringAt, h, List.takeWhile_append_of_pos]
  · simp
  · intro b hb
    rw [bne_iff_ne]
    rintro rfl
    exact hx hb

theorem foldl_set {ws : List Word} {buf : List UInt8} (i : ℕ) :
    (ws.foldl (fun buf w => buf.set w.eq 0) buf)[i]? =
      if (∃ w ∈ ws, w.eq = i) ∧ i < buf.length then some 0 else buf[i]? := by
  induction ws generalizing buf with
  | nil => simp
  | cons w ws ih =>
    rw [List.foldl_cons, ih, List.length_set, List.getElem?_set]
    by_cases hi : i < buf.length
    · by_cases hw : w.eq = i
      · simp [hi, hw]
      · simp [hi, hw]
    · have hno : buf[i]? = none := List.getElem?_eq_none (by omega)
      by_cases hw : w.eq = i
      · simp [hi, hw]
      · simp [hi, hw]

theorem cut_apart {buf : List UInt8} {q e q' e' : ℕ} (h : Cut buf q e) (h' : Cut buf q' e')
    (hlo : q ≤ e') : e ≤ e' := by
  by_contra hlt
  have hin : e' < buf.length := by have := h.inside; omega
  have hget : (buf.drop e').head? = some buf[e'] := by
    rw [List.head?_drop, List.getElem?_eq_getElem hin]
  have hmem : buf[e'] ∈ (buf.drop q).take (e-q) := by
    rw [List.mem_take_iff_getElem]
    refine ⟨e'-q,by rw [List.length_drop]; omega,?_⟩
    rw [List.getElem_drop]
    congr 1
    omega
  have hword := h.bytes _ hmem
  rw [h'.behind _ hget] at hword
  cases hword

variable {line : List UInt8} {ws : List Word}

theorem terminated_word (hz : 0 ∉ line) (hws : ∀ w ∈ ws, Cut line w.q w.eq) {w : Word} (hw : w ∈ ws) :
    stringAt (ws.foldl (fun buf w => buf.set w.eq 0) (line++[0])) w.q = w.bytes line := by
  have hcut := hws w hw
  have hlen : w.eq ≤ line.length := hcut.inside
  have hq : w.q < w.eq := hcut.nonempty
  generalize hbuf : ws.foldl (fun buf w => buf.set w.eq 0) (line++[0]) = buf
  have hbyte : ∀ i, buf[i]? = if (∃ w ∈ ws, w.eq = i) ∧ i < (line++[0]).length then some 0 else (line++[0])[i]? :=
    fun i => by rw [← hbuf, foldl_set]
  refine stringAt_of (buf.drop (w.eq+1)) (List.ext_getElem? fun i => ?_) ?_
  · have hwl : (w.bytes line).length = w.eq-w.q := by
      rw [Word.bytes, List.length_take, List.length_drop]
      omega
    rw [List.getElem?_drop, hbyte]
    rcases lt_trichotomy i (w.eq-w.q) with hi | rfl | hi
    · rw [if_neg, List.getElem?_append_left (by omega), List.getElem?_append_left (by omega), Word.bytes,
        List.getElem?_take_of_lt hi, List.getElem?_drop]
      rintro ⟨⟨w',hw',he⟩,-⟩
      have := cut_apart hcut (hws w' hw') (by omega)
      omega
    · rw [if_pos ⟨⟨w,hw,by omega⟩,by rw [List.length_append, List.length_singleton]; omega⟩,
        List.getElem?_append_right (by omega), hwl, Nat.sub_self]
      rfl
    · rw [← hbyte, List.getElem?_append_right (by omega), hwl]
      obtain ⟨j,rfl⟩ : ∃ j, i = w.eq-w.q+1+j := ⟨i-(w.eq-w.q)-1,by omega⟩
      have hj : w.eq-w.q+1+j-(w.eq-w.q) = j+1 := by omega
      rw [hj, List.getElem?_cons_succ, List.getElem?_drop]
      congr 1
      omega
  · intro h0
    exact hz (List.mem_of_mem_drop (List.mem_of_mem_take h0))

/-- Every word and file of the tree of an accepted line is a token of the line, and read as a
string from the buffer that `nulterminate` leaves it has the bytes of that token. -/
theorem strings_are_tokens (line : List UInt8) (hz : 0 ∉ line) (c : Cmd) (h : parsecmd line = .ok c) :
    ∀ w ∈ c.words, w.token ∈ tokens line.length line ∧
      stringAt (nulterminate c (line++[0])) w.q = w.bytes line := by
  have htok := words_tokens (parsecmd_derives h)
  have hcut : ∀ w ∈ c.words, Cut line w.q w.eq := fun w hw => tokens_cut (List.suffix_refl line) (htok w hw)
  intro w hw
  refine ⟨htok w hw,?_⟩
  rw [nulterminate_eq]
  exact terminated_word hz hcut hw

theorem strings_are_tokens_redir :
    (Word.mk 2 3).token ∈ tokens 3 [97,60,98] ∧
      stringAt (nulterminate (.redir (.exec [⟨0,1⟩]) ⟨2,3⟩ O_RDONLY 0) ([97,60,98]++[0])) 2 =
        (Word.mk 2 3).bytes [97,60,98] :=
  strings_are_tokens [97,60,98] (by decide) (.redir (.exec [⟨0,1⟩]) ⟨2,3⟩ O_RDONLY 0) rfl ⟨2,3⟩
    (by simp [Cmd.words])

end Xv6.Shell
