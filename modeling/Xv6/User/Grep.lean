import Xv6.User.Match

/-!
# The lines that grep writes

The loop of `grep` over the chunks that `read` returns. The buffer holds the beginning of a
line that is not finished and the new chunk; all lines in it that end are matched, and the
rest is moved to the front. When no line ends in the buffer, what it holds is dropped, so
the output is right as long as every chunk up to the last newline ends a line, and a line
that arrives in two pieces can be lost.
-/

set_option autoImplicit false

namespace Xv6.Grep

def newline : UInt8 := 10

/-- The inner loop. `line` are the bytes from `p` to where `strchr` looks; it returns what is
written and the bytes from the last `p` on. -/
def scan (re : List UInt8) : List UInt8 → List UInt8 → List UInt8 × List UInt8
  | line, [] => ([], line)
  | line, b::rest =>
    if b = newline then
      ((if matchRe re line then line++[newline] else [])++(scan re [] rest).1,(scan re [] rest).2)
    else scan re (line++[b]) rest

/-- One pass of the outer loop, with `m` bytes in the buffer before the `read`. -/
def pass (re m chunk : List UInt8) : List UInt8 × List UInt8 :=
  let (out, p) := scan re [] (m++chunk)
  (out, if p.length = (m++chunk).length then [] else p)

/-- What `read` may return: not more than `sizeof(buf)-m-1` bytes. -/
def Delivered (re : List UInt8) : List UInt8 → List (List UInt8) → Prop
  | _, [] => True
  | m, chunk::chunks => chunk ≠ [] ∧ chunk.length ≤ 1024-m.length-1 ∧
    Delivered re (pass re m chunk).2 chunks

variable {re : List UInt8}

end Xv6.Grep
