import Xv6.Lib.Halting

/-!
# The parser of the shell

`gettoken`, `peek` and the parse functions of `sh.c`. A pointer into the line is the rest of
the line, `n` is the length of the whole line, and a token is kept by the offsets of its
first byte and of the byte behind it. The functions that call each other or loop take a
bound on the depth; `parsecmd` gives one that is never reached.
-/

set_option autoImplicit false

namespace Xv6.Shell

def MAXARGS : ℕ := 10
def O_RDONLY : ℕ := 0
def O_WRONLY : ℕ := 1
def O_CREATE : ℕ := 512

/-- The bytes of `symbols`. -/
def lt : UInt8 := 60
def bar : UInt8 := 124
def gt : UInt8 := 62
def amp : UInt8 := 38
def semi : UInt8 := 59
def lpar : UInt8 := 40
def rpar : UInt8 := 41

def whitespace : List UInt8 := [32,9,13,10,11]
def symbols : List UInt8 := [lt,bar,gt,amp,semi,lpar,rpar]

def isSpace (b : UInt8) : Bool := whitespace.contains b
def isWord (b : UInt8) : Bool := !whitespace.contains b && !symbols.contains b

/-- What `gettoken` returns besides 0, with `*q` and `*eq` for a word. -/
inductive Token where
  | word (q eq : ℕ)
  | lt
  | gt
  | append
  | bar
  | amp
  | semi
  | lpar
  | rpar
  deriving DecidableEq

structure Word where
  q : ℕ
  eq : ℕ
  deriving DecidableEq

inductive Cmd where
  | exec (argv : List Word)
  | redir (cmd : Cmd) (file : Word) (mode fd : ℕ)
  | pipe (left right : Cmd)
  | list (left right : Cmd)
  | back (cmd : Cmd)
  deriving DecidableEq

/-- The store of one more argument into the `execcmd` below the redirections. -/
def Cmd.addArg (w : Word) : Cmd → Cmd
  | .exec argv => .exec (argv++[w])
  | .redir cmd file mode fd => .redir (cmd.addArg w) file mode fd
  | cmd => cmd

/-- Why the parser does not return. -/
inductive Stop where
  | panic (msg : String)
  | depth
  deriving DecidableEq

section
variable (n : ℕ)

/-- The token of a symbol that stands for itself. -/
def symbolToken (b : UInt8) : Option Token :=
  if b = bar then some .bar
  else if b = lpar then some .lpar
  else if b = rpar then some .rpar
  else if b = semi then some .semi
  else if b = amp then some .amp
  else if b = lt then some .lt
  else none

def gettoken (s : List UInt8) : Option Token × List UInt8 :=
  match s.dropWhile isSpace with
  | [] => (none, [])
  | b::s =>
    match symbolToken b with
    | some t => (some t, s.dropWhile isSpace)
    | none =>
      if b = gt then
        if s.head? = some gt then (some .append, s.tail.dropWhile isSpace)
        else (some .gt, s.dropWhile isSpace)
      else
        (some (.word (n-(b::s).length) (n-((b::s).dropWhile isWord).length)),
          ((b::s).dropWhile isWord).dropWhile isSpace)

def peek (s : List UInt8) (toks : List UInt8) : Bool × List UInt8 :=
  ((s.dropWhile isSpace).head?.any toks.contains, s.dropWhile isSpace)

def parseredirs : ℕ → Cmd → List UInt8 → Except Stop (Cmd × List UInt8)
  | 0, _, _ => .error .depth
  | k+1, cmd, s =>
    if (peek s [lt,gt]).1 then
      let (tok, s) := gettoken n (peek s [lt,gt]).2
      match gettoken n s with
      | (some (.word q eq), s) =>
        match tok with
        | some .lt => parseredirs k (.redir cmd ⟨q,eq⟩ O_RDONLY 0) s
        | some .gt => parseredirs k (.redir cmd ⟨q,eq⟩ (O_WRONLY+O_CREATE) 1) s
        | some .append => parseredirs k (.redir cmd ⟨q,eq⟩ (O_WRONLY+O_CREATE) 1) s
        | _ => parseredirs k cmd s
      | _ => .error (.panic "missing file for redirection")
    else .ok (cmd, (peek s [lt,gt]).2)

/-- The loop of `parseexec` over the words. -/
def parseargs : ℕ → ℕ → Cmd → List UInt8 → Except Stop (Cmd × List UInt8)
  | 0, _, _, _ => .error .depth
  | k+1, argc, ret, s =>
    if (peek s [bar,rpar,amp,semi]).1 then .ok (ret, (peek s [bar,rpar,amp,semi]).2)
    else match gettoken n (peek s [bar,rpar,amp,semi]).2 with
      | (none, s) => .ok (ret, s)
      | (some (.word q eq), s) =>
        if MAXARGS ≤ argc+1 then .error (.panic "too many args")
        else do
          let (ret, s) ← parseredirs n k (ret.addArg ⟨q,eq⟩) s
          parseargs k (argc+1) ret s
      | _ => .error (.panic "syntax")

/-- The loop of `parseline` over `&`. -/
def parsebacks : ℕ → Cmd → List UInt8 → Except Stop (Cmd × List UInt8)
  | 0, _, _ => .error .depth
  | k+1, cmd, s =>
    if (peek s [amp]).1 then parsebacks k (.back cmd) (gettoken n (peek s [amp]).2).2
    else .ok (cmd, (peek s [amp]).2)

mutual

def parseline : ℕ → List UInt8 → Except Stop (Cmd × List UInt8)
  | 0, _ => .error .depth
  | k+1, s => do
    let (cmd, s) ← parsepipe k s
    let (cmd, s) ← parsebacks n k cmd s
    if (peek s [semi]).1 then do
      let (rest, s) ← parseline k (gettoken n (peek s [semi]).2).2
      .ok (.list cmd rest, s)
    else .ok (cmd, (peek s [semi]).2)

def parsepipe : ℕ → List UInt8 → Except Stop (Cmd × List UInt8)
  | 0, _ => .error .depth
  | k+1, s => do
    let (cmd, s) ← parseexec k s
    if (peek s [bar]).1 then do
      let (rest, s) ← parsepipe k (gettoken n (peek s [bar]).2).2
      .ok (.pipe cmd rest, s)
    else .ok (cmd, (peek s [bar]).2)

def parseexec : ℕ → List UInt8 → Except Stop (Cmd × List UInt8)
  | 0, _ => .error .depth
  | k+1, s =>
    if (peek s [lpar]).1 then parseblock k (peek s [lpar]).2
    else do
      let (ret, s) ← parseredirs n k (.exec []) (peek s [lpar]).2
      parseargs n k 0 ret s

def parseblock : ℕ → List UInt8 → Except Stop (Cmd × List UInt8)
  | 0, _ => .error .depth
  | k+1, s =>
    if (peek s [lpar]).1 then do
      let (cmd, s) ← parseline k (gettoken n (peek s [lpar]).2).2
      if (peek s [rpar]).1 then parseredirs n k cmd (gettoken n (peek s [rpar]).2).2
      else .error (.panic "syntax - missing )")
    else .error (.panic "parseblock")

end

end

def parsecmd (line : List UInt8) : Except Stop Cmd := do
  let (cmd, s) ← parseline line.length (4*line.length+4) line
  if (peek s []).2 = [] then .ok cmd else .error (.panic "syntax")

/-! ### The tokens of a line -/

/-- The tokens from here on: the symbols, with `>>` as one, and the longest runs of other
bytes that are not white. -/
def tokens (n : ℕ) (s : List UInt8) : List Token :=
  match s with
  | [] => []
  | b::s =>
    if isSpace b then tokens n s
    else if b = gt then
      if s.head? = some gt then .append::tokens n s.tail else .gt::tokens n s
    else match symbolToken b with
      | some t => t::tokens n s
      | none => .word (n-(b::s).length) (n-(s.dropWhile isWord).length)::tokens n (s.dropWhile isWord)
  termination_by s.length
  decreasing_by
    all_goals have := (List.dropWhile_sublist (l := s) isWord).length_le
    all_goals simp_wf
    all_goals omega

/-- The first byte of a token that is no word. -/
def Token.byte : Token → Option UInt8
  | .word _ _ => none
  | .lt => some Shell.lt
  | .gt => some Shell.gt
  | .append => some Shell.gt
  | .bar => some Shell.bar
  | .amp => some Shell.amp
  | .semi => some Shell.semi
  | .lpar => some Shell.lpar
  | .rpar => some Shell.rpar

end Xv6.Shell
