import Xv6.User.ShellRedirs

/-!
# Running a command

`runcmd` over the whole tree: the processes that it makes, and the descriptors each of
them has when it executes its program or waits. The ends of a pipe are where they belong
and nowhere else. The write end is descriptor 1 of processes left of the bar, so that the
command on the right comes to the end of its input when these have exited.
-/

set_option autoImplicit false

namespace Xv6.Shell
open Xv6.Files

variable {F : Type}

/-- What a descriptor refers to: an opened file, or an end of the pipe that was made at a
node of the tree. -/
inductive End (F : Type) where
  | file (f : F)
  | read (node : List Bool)
  | write (node : List Bool)

/-- A process that executes the program of its node, or a shell that waits there. -/
structure Proc (F : Type) where
  node : List Bool
  argv : Option (List Word)
  ofile : Fds (End F)

/-- `dup`, whose result `runcmd` does not look at. -/
def dup (o : Fds F) (fd : Fin NOFILE) : Fds F :=
  ((o fd).bind (fdalloc o)).elim o Prod.fst

def pipe (o : Fds (End F)) (node : List Bool) : Option (Fds (End F) × Fin NOFILE × Fin NOFILE) := do
  let (o, p0) ← fdalloc o (.read node)
  let (o, p1) ← fdalloc o (.write node)
  some (o, p0, p1)

/-- `close(fd); dup(p); close(p[0]); close(p[1]);` -/
def plug (o : Fds F) (fd : ℕ) (p p0 p1 : Fin NOFILE) : Fds F :=
  closeFd (closeFd (dup (closeFd o fd) p) p0) p1

def intoPipe (o : Fds (End F)) (node : List Bool) : Fds (End F) :=
  Function.update o ⟨1,one_lt_nofile⟩ (some (.write node))

def outOfPipe (o : Fds (End F)) (node : List Bool) : Fds (End F) :=
  Function.update o ⟨0,nofile_pos⟩ (some (.read node))

/-- `forks` tells which calls of `fork1` succeed, by the node of the child. A process exits
if it cannot fork, open the file or make the pipe. -/
def runcmd (opens : Word → ℕ → Option F) (forks : List Bool → Bool) :
    Cmd → List Bool → Fds (End F) → List (Proc F)
  | .exec argv, node, o => if argv = [] then [] else [⟨node,some argv,o⟩]
  | .redir cmd file mode fd, node, o =>
    match (opens file mode).bind fun f => fdalloc (closeFd o fd) (.file f) with
    | none => []
    | some (o, _) => runcmd opens forks cmd node o
  | .list left right, node, o =>
    if forks (node++[false]) then
      ⟨node,none,o⟩::runcmd opens forks left (node++[false]) o++
        runcmd opens forks right (node++[true]) o
    else []
  | .pipe left right, node, o =>
    match pipe o node with
    | none => []
    | some (t, p0, p1) =>
      if forks (node++[false]) then
        runcmd opens forks left (node++[false]) (plug t 1 p1 p0 p1)++
        -- without the second child the shell exits while the first runs
        if forks (node++[true]) then
          ⟨node,none,closeFd (closeFd t p0) p1⟩::
            runcmd opens forks right (node++[true]) (plug t 0 p0 p0 p1)
        else []
      else []
  | .back cmd, node, o =>
    if forks (node++[false]) then runcmd opens forks cmd (node++[false]) o else []

/-- The ends of pipes that a process of the node has. -/
def Placed (node : List Bool) (o : Fds (End F)) : Prop :=
  ∀ fd n, (o fd = some (.write n) → fd.val = 1 ∧ n++[false] <+: node) ∧
    (o fd = some (.read n) → fd.val = 0 ∧ n++[true] <+: node)

/-- Standard input and output are open. -/
def Connected (o : Fds F) : Prop := ∀ fd : Fin NOFILE, fd.val < 2 → o fd ≠ none

variable {opens : Word → ℕ → Option F} {forks : List Bool → Bool} {node : List Bool}
  {o t : Fds (End F)} {e : End F} {fd p p0 p1 : Fin NOFILE}

theorem fdalloc_some (h : fdalloc o e = some (t, fd)) :
    o fd = none ∧ t = Function.update o fd (some e) := by
  obtain ⟨d,hd,h⟩ := Option.map_eq_some_iff.mp h
  cases h
  exact ⟨by simpa using List.find?_some hd,rfl⟩

theorem Placed.mono {node' : List Bool} (h : Placed node o) (hn : node <+: node') :
    Placed node' o :=
  fun fd n => ⟨fun hw => ((h fd n).1 hw).imp_right (·.trans hn),
    fun hr => ((h fd n).2 hr).imp_right (·.trans hn)⟩

theorem close_both (ho : ∀ d, d ≠ p0 → d ≠ p1 → t d = o d) (h0 : o p0 = none)
    (h1 : o p1 = none) : closeFd (closeFd t p0) p1 = o := by
  rw [closeFd_fin, closeFd_fin]
  ext1 d
  by_cases hd1 : d = p1
  · rw [hd1, Function.update_self, h1]
  · rw [Function.update_of_ne hd1]
    by_cases hd0 : d = p0
    · rw [hd0, Function.update_self, h0]
    · rw [Function.update_of_ne hd0, ho d hd0 hd1]

theorem plug_eq (fd : Fin NOFILE) (ho : ∀ d, d ≠ p0 → d ≠ p1 → t d = o d) (h0 : o p0 = none)
    (h1 : o p1 = none) (hlow : ∀ d ≤ fd, o d ≠ none) (hp : p ≠ fd) (he : t p = some e) :
    plug t fd p p0 p1 = Function.update o fd (some e) := by
  have hfd : ∀ d ≤ fd, d ≠ p0 ∧ d ≠ p1 :=
    fun d hd => ⟨fun he => hlow d hd (he ▸ h0),fun he => hlow d hd (he ▸ h1)⟩
  have hdup : dup (closeFd t fd) p = Function.update t fd (some e) := by
    rw [dup, closeFd_fin, Function.update_of_ne hp, he, Option.bind_some, fdalloc_closed]
    · rfl
    · intro d hd
      rw [ho d (hfd d hd.le).1 (hfd d hd.le).2]
      exact hlow d hd.le
  rw [plug, hdup]
  apply close_both
  · intro d hd0 hd1
    rw [Function.update_apply, Function.update_apply, ho d hd0 hd1]
  · rw [Function.update_of_ne (hfd fd le_rfl).1.symm, h0]
  · rw [Function.update_of_ne (hfd fd le_rfl).2.symm, h1]

/-- The three processes of a pipe: only the two commands are left with an end of it. -/
theorem pipe_ends (hs : Connected o) (h : pipe o node = some (t, p0, p1)) :
    plug t 1 p1 p0 p1 = intoPipe o node ∧ plug t 0 p0 p0 p1 = outOfPipe o node ∧
      closeFd (closeFd t p0) p1 = o := by
  obtain ⟨⟨t1,q0⟩,hq0,h⟩ := Option.bind_eq_some_iff.mp h
  obtain ⟨⟨t2,q1⟩,hq1,h⟩ := Option.bind_eq_some_iff.mp h
  cases h
  obtain ⟨h0,rfl⟩ := fdalloc_some hq0
  obtain ⟨h1,rfl⟩ := fdalloc_some hq1
  have hne : p1 ≠ p0 := by
    rintro rfl
    rw [Function.update_self] at h1
    cases h1
  rw [Function.update_of_ne hne] at h1
  have ht : ∀ d, d ≠ p0 → d ≠ p1 → Function.update (Function.update o p0 (some (.read node))) p1
      (some (.write node)) d = o d := by
    intro d hd0 hd1
    rw [Function.update_of_ne hd1, Function.update_of_ne hd0]
  have hnot : ∀ fd : Fin NOFILE, fd.val < 2 → p0 ≠ fd ∧ p1 ≠ fd :=
    fun fd hfd => ⟨fun he => hs fd hfd (he ▸ h0),fun he => hs fd hfd (he ▸ h1)⟩
  refine ⟨?_,?_,close_both ht h0 h1⟩
  · apply plug_eq ⟨1,one_lt_nofile⟩ ht h0 h1
    · exact fun d hd => hs d (Nat.lt_succ_of_le hd)
    · exact (hnot _ Nat.one_lt_two).2
    · exact Function.update_self ..
  · apply plug_eq ⟨0,nofile_pos⟩ ht h0 h1
    · exact fun d hd => hs d (Nat.lt_succ_of_le (Nat.le_succ_of_le hd))
    · exact (hnot _ Nat.two_pos).1
    · rw [Function.update_of_ne hne.symm, Function.update_self]

theorem redir_fds {f : F} {n : ℕ} (hs : Connected o)
    (h : fdalloc (closeFd o n) (.file f) = some (t, fd)) :
    Connected t ∧ ∀ d e, t d = some e → e = .file f ∨ o d = some e := by
  constructor
  · intro d hd
    by_cases hn : n < 2
    · have hN : n < NOFILE := hn.trans (by decide)
      rw [show closeFd o n = _ from closeFd_fin o ⟨n,hN⟩, fdalloc_closed] at h
      · cases h
        rw [Function.update_apply]
        split
        · exact Option.some_ne_none _
        · exact hs d hd
      · exact fun e he => hs e (Nat.lt_trans he hn)
    · rw [(fdalloc_some h).2, Function.update_apply]
      split
      · exact Option.some_ne_none _
      · rw [closeFd]
        split
        · rw [Function.update_of_ne (by rintro rfl; exact hn hd)]
          exact hs d hd
        · exact hs d hd
  · intro d e he
    rw [(fdalloc_some h).2, Function.update_apply] at he
    split at he
    · exact .inl (Option.some.inj he).symm
    · rw [closeFd] at he
      split at he
      · rw [Function.update_apply] at he
        split at he
        · cases he
        · exact .inr he
      · exact .inr he

theorem Connected.update (hs : Connected o) (fd : Fin NOFILE) (e : End F) :
    Connected (Function.update o fd (some e)) := by
  intro d hd
  rw [Function.update_apply]
  split
  · exact Option.some_ne_none e
  · exact hs d hd

theorem Placed.update (h : Placed node o)
    (hw : ∀ n, e = .write n → fd.val = 1 ∧ n++[false] <+: node)
    (hr : ∀ n, e = .read n → fd.val = 0 ∧ n++[true] <+: node) :
    Placed node (Function.update o fd (some e)) := by
  intro d n
  rw [Function.update_apply]
  split
  · next hd =>
    rw [hd]
    exact ⟨fun he => hw n (Option.some.inj he),fun he => hr n (Option.some.inj he)⟩
  · exact h d n

theorem runcmd_pipe (l r : Cmd) (hs : Connected o) (hp : pipe o node ≠ none) :
    runcmd opens forks (.pipe l r) node o =
      if forks (node++[false]) then
        runcmd opens forks l (node++[false]) (intoPipe o node)++
        if forks (node++[true]) then
          ⟨node,none,o⟩::runcmd opens forks r (node++[true]) (outOfPipe o node)
        else []
      else [] := by
  obtain ⟨⟨t,p0,p1⟩,h⟩ := Option.ne_none_iff_exists'.mp hp
  obtain ⟨hl,hr,hw⟩ := pipe_ends hs h
  rw [runcmd, h]
  dsimp only
  rw [hl, hr, hw]

theorem runcmd_placed (c : Cmd) (hs : Connected o) (ho : Placed node o) :
    ∀ p ∈ runcmd opens forks c node o, Placed p.node p.ofile := by
  induction c generalizing node o with
  | exec argv =>
    intro p hp
    rw [runcmd] at hp
    split at hp
    · cases hp
    · rw [List.mem_singleton.mp hp]
      exact ho
  | redir cmd file mode fd ih =>
    rw [runcmd]
    split
    · nofun
    · next h =>
      obtain ⟨f,-,hd⟩ := Option.bind_eq_some_iff.mp h
      obtain ⟨hs',he⟩ := redir_fds hs hd
      refine ih hs' fun d n => ⟨fun hw => ?_,fun hr => ?_⟩
      · exact (ho d n).1 ((he d _ hw).resolve_left nofun)
      · exact (ho d n).2 ((he d _ hr).resolve_left nofun)
  | list l r ihl ihr =>
    rw [runcmd]
    split
    · simp only [List.cons_append, List.forall_mem_cons, List.forall_mem_append]
      exact ⟨ho,ihl hs (ho.mono (List.prefix_append ..)),ihr hs (ho.mono (List.prefix_append ..))⟩
    · nofun
  | pipe l r ihl ihr =>
    by_cases hp : pipe o node = none
    · rw [runcmd, hp]
      nofun
    · have hl : Placed (node++[false]) (intoPipe o node) := by
        refine (ho.mono (List.prefix_append ..)).update ?_ nofun
        rintro n ⟨⟩
        exact ⟨rfl,List.prefix_rfl⟩
      have hr : Placed (node++[true]) (outOfPipe o node) := by
        refine (ho.mono (List.prefix_append ..)).update nofun ?_
        rintro n ⟨⟩
        exact ⟨rfl,List.prefix_rfl⟩
      rw [runcmd_pipe l r hs hp]
      split
      · refine List.forall_mem_append.mpr ⟨ihl (hs.update _ _) hl,?_⟩
        split
        · exact List.forall_mem_cons.mpr ⟨ho,ihr (hs.update _ _) hr⟩
        · nofun
      · nofun
  | back cmd ih =>
    rw [runcmd]
    split
    · exact ih hs (ho.mono (List.prefix_append ..))
    · nofun

/-- No process but those that are to use an end of a pipe has it open. -/
theorem pipes_reach_commands (opens : Word → ℕ → Option F) (forks : List Bool → Bool) (c : Cmd)
    (node : List Bool) (o : Fds (End F)) (hs : Connected o)
    (ho : ∀ fd e, o fd = some e → ∃ f, e = .file f) :
    (∀ p ∈ runcmd opens forks c node o, Placed p.node p.ofile) ∧
    ∀ l r, pipe o node ≠ none → forks (node++[false]) = true → forks (node++[true]) = true →
      runcmd opens forks (.pipe l r) node o =
        runcmd opens forks l (node++[false]) (intoPipe o node)++
        ⟨node,none,o⟩::runcmd opens forks r (node++[true]) (outOfPipe o node) := by
  constructor
  · apply runcmd_placed c hs
    intro fd n
    constructor
    · intro he
      cases (ho fd _ he).choose_spec
    · intro he
      cases (ho fd _ he).choose_spec
  · intro l r hp h0 h1
    rw [runcmd_pipe l r hs hp, if_pos h0, if_pos h1]

/-- A shell with only the first three descriptors. -/
def terminal : Fds (End Word) := fun fd => (console fd).map .file

/-- `a|b` -/
theorem pipes_reach_commands_two : ∃ ps,
    runcmd (fun w _ => some w) (fun _ => true) (.pipe (.exec [⟨0,1⟩]) (.exec [⟨2,3⟩])) [] terminal =
      ps ∧ ps.length = 3 ∧ ∀ p ∈ ps, Placed p.node p.ofile := by
  have hs : Connected terminal := by
    rintro ⟨fd,hfd⟩ h
    have hc : console ⟨fd,hfd⟩ = some ⟨0,0⟩ := if_pos (Nat.lt_succ_of_lt h)
    simp [terminal, hc]
  have ho : ∀ fd e, terminal fd = some e → ∃ f, e = .file f := by
    intro fd e he
    obtain ⟨f,-,hf⟩ := Option.map_eq_some_iff.mp he
    exact ⟨f,hf.symm⟩
  exact ⟨_,rfl,rfl,(pipes_reach_commands _ _ _ [] terminal hs ho).1⟩

end Xv6.Shell
