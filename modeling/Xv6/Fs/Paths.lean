import Mathlib.Data.List.DropRight
import Xv6.Lib.Tally
import Xv6.Fs.Consistency
import Xv6.Fs.Directory

/-!
# Paths

`skipelem`, `namex`, `namei` and `nameiparent` of `fs.c` over the inode cache, with the
sleep locks that the caller holds. A path is its bytes without the final zero, the buffer
for a name has `DIRSIZ` bytes, and a caller that waits for a lock it holds itself sleeps for
good. What a path means is a walk over the directories on the disk.
-/

set_option autoImplicit false

namespace Xv6.Fs
open Xv6.Kalloc Xv6.SlotMap

def slash : UInt8 := 47

/-- The rest of the path and the buffer, `none` if there is no element. -/
def skipelem (path name : List UInt8) : Option (List UInt8 × List UInt8) :=
  match path.dropWhile (· == slash) with
  | [] => none
  | c::s =>
    let elem := (c::s).takeWhile (· != slash)
    let name := if DIRSIZ ≤ elem.length then elem.take DIRSIZ
      else elem++0::name.drop (elem.length+1)
    some (((c::s).dropWhile (· != slash)).dropWhile (· == slash), name)

inductive Stop where
  | halt (e : Halt)
  | asleep

def Stop.lift {α : Type} : Except Halt α → Except Stop α
  | .ok a => .ok a
  | .error e => .error (.halt e)

/-- The cache and the locks that the caller holds. -/
structure View where
  sys : Sys
  held : List (Fin NINODE)

namespace View
variable (sb : Super)

def ilock (v : View) (k : Fin NINODE) : Except Stop View :=
  if k ∈ v.held then .error .asleep
  else (Stop.lift (v.sys.ilock sb k)).bind fun s => .ok ⟨s,k::v.held⟩

def iunlock (v : View) (k : Fin NINODE) : Except Stop View :=
  if k ∉ v.held ∨ (v.sys.cache k).ref < 1 then .error (.halt (.panic "iunlock"))
  else .ok { v with held := v.held.erase k }

def iput (v : View) (k : Fin NINODE) : Except Stop View :=
  if k ∈ v.held then .error .asleep
  else (Stop.lift (v.sys.iput sb k)).bind fun s => .ok { v with sys := s }

def iunlockput (v : View) (k : Fin NINODE) : Except Stop View :=
  (v.iunlock k).bind fun v => v.iput sb k

/-- `dirlookup` with its `iget`. -/
def dirlookup (v : View) (k : Fin NINODE) (name : List UInt8) :
    Except Stop (View × Option (Fin NINODE)) :=
  (Stop.lift (Fs.dirlookup sb v.sys.store (v.sys.cache k).ip name)).bind fun r =>
    let s := v.sys.put k r.1 r.2.1
    match r.2.2 with
    | none => .ok ({ v with sys := s }, none)
    | some (inum, _) =>
      (Stop.lift (s.iget inum)).bind fun r => .ok ({ v with sys := r.1 }, some r.2)

end View

theorem not_slash {path s : List UInt8} {c : UInt8} (h : path.dropWhile (· == slash) = c::s) : c ≠ slash := by
  have := List.head?_dropWhile_not (· == slash) path
  rw [h] at this
  simpa using this

theorem skipelem_shorter {path name rest name' : List UInt8} (h : skipelem path name = some (rest, name')) :
    rest.length < path.length := by
  have h1 := (List.dropWhile_sublist (l := path) (· == slash)).length_le
  rw [skipelem] at h
  split at h
  · cases h
  · next c s hcs =>
    rw [hcs] at h1
    injection h with h
    injection h with h
    have h2 := (List.dropWhile_sublist (l := s) (· != slash)).length_le
    have h3 := (List.dropWhile_sublist (l := s.dropWhile (· != slash)) (· == slash)).length_le
    rw [List.dropWhile_cons, if_pos (by simpa using not_slash hcs)] at h
    rw [← h]
    rw [List.length_cons] at h1
    omega

section
variable (sb : Super)

/-- The loop of `namex` from the inode in entry `ip`. -/
def namexLoop (parent : Bool) (path name : List UInt8) (v : View) (ip : Fin NINODE) :
    Except Stop (View × Option (Fin NINODE) × List UInt8) :=
  match _h : skipelem path name with
  | none => if parent then (v.iput sb ip).bind fun v => .ok (v, none, name) else .ok (v, some ip, name)
  | some (path', name') =>
    (v.ilock sb ip).bind fun v =>
      if (v.sys.cache ip).ip.type ≠ T_DIR then (v.iunlockput sb ip).bind fun v => .ok (v, none, name')
      else if parent = true ∧ path' = [] then (v.iunlock ip).bind fun v => .ok (v, some ip, name')
      else (v.dirlookup sb ip name').bind fun r =>
        match r.2 with
        | none => (r.1.iunlockput sb ip).bind fun v => .ok (v, none, name')
        | some next => (r.1.iunlockput sb ip).bind fun v => namexLoop parent path' name' v next
  termination_by path.length
  decreasing_by exact skipelem_shorter _h

def namex (parent : Bool) (path name : List UInt8) (v : View) (cwd : Fin NINODE) :
    Except Stop (View × Option (Fin NINODE) × List UInt8) :=
  if path.head? = some slash then
    (Stop.lift (v.sys.iget ROOTINO)).bind fun r => namexLoop sb parent path name { v with sys := r.1 } r.2
  else namexLoop sb parent path name { v with sys := v.sys.idup cwd } cwd

def namei (path name : List UInt8) (v : View) (cwd : Fin NINODE) :
    Except Stop (View × Option (Fin NINODE) × List UInt8) := namex sb false path name v cwd

def nameiparent (path name : List UInt8) (v : View) (cwd : Fin NINODE) :
    Except Stop (View × Option (Fin NINODE) × List UInt8) := namex sb true path name v cwd

end

/-! ### What a path means -/

/-- The longest runs of bytes that are no slash, cut to `DIRSIZ` bytes. -/
def components (path : List UInt8) : List (List UInt8) :=
  ((path.splitOn slash).filter (fun c => c ≠ [])).map (List.take DIRSIZ)

/-- The inode number of a name in a directory. -/
def lookup (d : Disk) (ip : Inode) (name : List UInt8) : Option ℕ :=
  ((List.range ip.nentries).find? (holds (slots d ip) (shorten name))).map
    (fun j => direntInum (entryAt d ip j))

/-- The inode that the components lead to. -/
def resolve (sb : Super) (d : Disk) : ℕ → List (List UInt8) → Option ℕ
  | i, [] => some i
  | i, c::cs =>
    if (dinode sb d i).type = T_DIR then (lookup d (dinode sb d i) c).bind fun j => resolve sb d j cs
    else none

/-- The directory before the last of the components. -/
def resolveParent (sb : Super) (d : Disk) (i : ℕ) (cs : List (List UInt8)) : Option ℕ :=
  if cs = [] then none
  else (resolve sb d i cs.dropLast).filter fun j => (dinode sb d j).type = T_DIR

theorem components_slash (path : List UInt8) : components (slash::path) = components path := by
  have hnil : ∀ c ∈ ([] : List UInt8), (c == slash) = false := by simp
  have hsplit := List.splitOnP_append_cons_of_forall_mem hnil slash (by simp) path
  rw [components, List.splitOn, ← List.nil_append (slash::path), hsplit]
  rfl

theorem components_dropWhile (path : List UInt8) :
    components (path.dropWhile (· == slash)) = components path := by
  induction path with
  | nil => rfl
  | cons c path ih =>
    by_cases hc : c = slash
    · subst hc
      rw [List.dropWhile_cons_of_pos (by simp), ih, components_slash]
    · rw [List.dropWhile_cons_of_neg (by simpa using hc)]

theorem components_elem {elem rest : List UInt8} (hne : elem ≠ []) (he : ∀ c ∈ elem, c ≠ slash)
    (hrest : ∀ c, rest.head? = some c → c = slash) :
    components (elem++rest) = elem.take DIRSIZ::components rest := by
  have hno : ∀ c ∈ elem, (c == slash) = false := by simpa using he
  cases rest with
  | nil =>
    rw [List.append_nil, components, List.splitOn, List.splitOnP_eq_singleton hno]
    simp [hne, components]
  | cons c rest =>
    obtain rfl := hrest c rfl
    rw [components_slash, components, List.splitOn,
      List.splitOnP_append_cons_of_forall_mem hno slash (by simp)]
    simp [hne, components, List.splitOn]

theorem components_cons {path s : List UInt8} {c : UInt8} (h : path.dropWhile (· == slash) = c::s) :
    components path = ((c::s).takeWhile (· != slash)).take DIRSIZ::
      components ((c::s).dropWhile (· != slash)) := by
  have hc := not_slash h
  have hsplit : (c::s).takeWhile (· != slash)++(c::s).dropWhile (· != slash) = c::s :=
    List.takeWhile_append_dropWhile
  rw [← components_dropWhile, h]
  conv_lhs => rw [← hsplit]
  refine components_elem ?_ (fun x hx => ?_) fun x hx => ?_
  · rw [List.takeWhile_cons, if_pos (by simpa using hc)]
    exact List.cons_ne_nil c _
  · simpa using List.all_eq_true.mp List.all_takeWhile x hx
  · have := List.head?_dropWhile_not (· != slash) (c::s)
    rw [hx] at this
    simpa using this

theorem components_nil_iff (path : List UInt8) :
    components path = [] ↔ path.dropWhile (· == slash) = [] := by
  cases hcs : path.dropWhile (· == slash) with
  | nil =>
    rw [← components_dropWhile, hcs]
    simp [components]
  | cons c s =>
    rw [components_cons hcs]
    simp

/-- The buffer holds the element, cut to `DIRSIZ` bytes and with a zero if there is room. -/
theorem shorten_elem {elem : List UInt8} (h : 0 ∉ elem) (old : List UInt8) :
    shorten (if DIRSIZ ≤ elem.length then elem.take DIRSIZ else elem++0::old) = elem.take DIRSIZ := by
  have hnz : ∀ l : List UInt8, (∀ x ∈ l, x ∈ elem) → ∀ x ∈ l, (x != 0) = true := by
    intro l hl x hx
    rw [bne_iff_ne]
    rintro rfl
    exact h (hl 0 hx)
  rw [shorten]
  split
  · rw [List.take_take, Nat.min_self]
    exact List.takeWhile_eq_self_iff.mpr (hnz _ fun x hx => List.mem_of_mem_take hx)
  · next hlen =>
    obtain ⟨n,hn⟩ : ∃ n, DIRSIZ-elem.length = n+1 := ⟨DIRSIZ-elem.length-1,by omega⟩
    rw [List.take_append, hn, List.take_succ_cons, List.take_of_length_le (by omega),
      List.takeWhile_append_of_pos (hnz _ fun x hx => hx)]
    simp

theorem skipelem_spec {path : List UInt8} (name : List UInt8) (h0 : 0 ∉ path) :
    (skipelem path name = none ∧ components path = []) ∨
      ∃ rest name' c, skipelem path name = some (rest, name') ∧ components path = c::components rest ∧
        shorten name' = c ∧ 0 ∉ rest ∧ (rest = [] ↔ components rest = []) := by
  rw [skipelem]
  have hz : 0 ∉ path.dropWhile (· == slash) := fun h => h0 ((List.dropWhile_sublist _).subset h)
  cases hcs : path.dropWhile (· == slash) with
  | nil => exact .inl ⟨rfl,(components_nil_iff path).mpr hcs⟩
  | cons c s =>
    rw [hcs] at hz
    refine .inr ⟨_,_,_,rfl,?_,shorten_elem ?_ _,?_,?_⟩
    · rw [components_cons hcs, components_dropWhile]
    · exact fun h => hz ((List.takeWhile_sublist _).subset h)
    · exact fun h => hz ((List.dropWhile_sublist _).subset ((List.dropWhile_sublist _).subset h))
    · rw [components_nil_iff, List.dropWhile_idempotent]

end Xv6.Fs
