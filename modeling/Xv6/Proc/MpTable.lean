import Xv6.Proc.Kernel

/-!
# The MP configuration table

`mpsearch` and `mpconfig` look for the table of the processors that the firmware left in
memory, and `mpinit` walks over its entries. Each entry of a known type moves the cursor past
the entry, so the walk ends. At an entry of another type the `break` leaves only the `switch`:
the cursor stays and the loop goes round for ever, before the panic that was meant for it.
-/

set_option autoImplicit false

namespace Xv6.Mp
open Xv6.Kern

/-- An address in the memory of the kernel. -/
abbrev Addr := BitVec 32

def MPPROC : UInt8 := 0
def MPBUS : UInt8 := 1
def MPIOAPIC : UInt8 := 2
def MPIOINTR : UInt8 := 3
def MPLINTR : UInt8 := 4

/-- `sizeof(struct mp)`, `sizeof(struct mpconf)`, `sizeof(struct mpproc)` and
`sizeof(struct mpioapic)`. -/
def mpSize : ℕ := 16
def mpconfSize : Addr := 44
def mpprocSize : Addr := 20
def mpioapicSize : Addr := 8

def p2v (a : Addr) : Addr := a+0x80000000

section
variable (mem : Addr → UInt8)

def ushort (a : Addr) : ℕ := (mem a).toNat+2^8*(mem (a+1)).toNat

def uint (a : Addr) : Addr := BitVec.ofNat 32 (ushort mem a+2^16*ushort mem (a+2))

/-- The sum of the bytes as an `unsigned char`. -/
def sum (addr : Addr) (len : ℕ) : UInt8 :=
  UInt8.ofNat ((List.range len).map fun i => (mem (addr+BitVec.ofNat 32 i)).toNat).sum

/-- `memcmp` of the four bytes of a signature. -/
def signed (p : Addr) (signature : List UInt8) : Bool :=
  [mem p,mem (p+1),mem (p+2),mem (p+3)] == signature

/-- The addresses `a, a+16, …` below `a+len`. -/
def mpsearch1 (a : Addr) (len : ℕ) : Option Addr :=
  ((List.range ((len+mpSize-1)/mpSize)).map fun i => p2v a+BitVec.ofNat 32 (mpSize*i)).find?
    fun p => signed mem p [0x5F,0x4D,0x50,0x5F] && sum mem p mpSize == 0

def mpsearch : Option Addr :=
  let bda := p2v 0x400
  let ebda := BitVec.ofNat 32 (ushort mem (bda+0x0E)*2^4)
  let base := BitVec.ofNat 32 (ushort mem (bda+0x13)*1024)
  (if ebda ≠ 0 then mpsearch1 mem ebda 1024 else mpsearch1 mem (base-1024) 1024).orElse
    fun _ => mpsearch1 mem 0xF0000 0x10000

/-- `conf->length`. -/
def tableLength (conf : Addr) : ℕ := ushort mem (conf+4)

/-- The floating pointer and the table that are accepted. -/
def mpconfig : Option (Addr × Addr) := do
  let mp ← mpsearch mem
  let physaddr := uint mem (mp+4)
  if physaddr = 0 then none
  else
    let conf := p2v physaddr
    if !signed mem conf [0x50,0x43,0x4D,0x50] then none
    else if mem (conf+6) ≠ 1 ∧ mem (conf+6) ≠ 4 then none
    else if sum mem conf (tableLength mem conf) ≠ 0 then none
    else some (mp,conf)

/-- The variables of the loop. `apicids` are the apicids of `cpus[0]` to `cpus[ncpu-1]`. -/
structure Scan where
  p : Addr
  ismp : Bool
  apicids : List UInt8
  ioapicid : UInt8

/-- The `switch` of the loop. -/
def entry (s : Scan) : Scan :=
  if mem s.p = MPPROC then
    { s with
      apicids := if s.apicids.length < NCPU then s.apicids++[mem (s.p+1)] else s.apicids
      p := s.p+mpprocSize }
  else if mem s.p = MPIOAPIC then
    { s with ioapicid := mem (s.p+1), p := s.p+mpioapicSize }
  else if mem s.p = MPBUS ∨ mem s.p = MPIOINTR ∨ mem s.p = MPLINTR then
    { s with p := s.p+8 }
  else { s with ismp := false }

/-- The loop up to `e`, for a number of rounds. -/
def scan (e : Addr) : ℕ → Scan → Option Scan
  | 0, _ => none
  | n+1, s => if s.p < e then scan e n (entry mem s) else some s

end

inductive Halt
  | notSmp
  | unsuitable
deriving DecidableEq

def Halt.message : Halt → String
  | .notSmp => "Expect to run on an SMP"
  | .unsuitable => "Didn't find a suitable machine"

/-- What `mpinit` leaves; `imcr` tells that it masked the external interrupts. -/
structure Config where
  lapic : Addr
  apicids : List UInt8
  ioapicid : UInt8
  imcr : Bool

/-- `mpinit` for a number of rounds of its loop. -/
def mpinit (mem : Addr → UInt8) (ioapicid : UInt8) (n : ℕ) : Option (Except Halt Config) :=
  match mpconfig mem with
  | none => some (.error .notSmp)
  | some (mp,conf) =>
    (scan mem (conf+BitVec.ofNat 32 (tableLength mem conf)) n
      ⟨conf+mpconfSize,true,[],ioapicid⟩).map fun s =>
        if !s.ismp then .error .unsuitable
        else .ok ⟨uint mem (conf+36),s.apicids,s.ioapicid,mem (mp+12) ≠ 0⟩

/-- How far an entry of a known type moves the cursor. -/
def entrySize (type : UInt8) : Option Addr :=
  if type = MPPROC then some mpprocSize
  else if type = MPIOAPIC then some mpioapicSize
  else if type = MPBUS ∨ type = MPIOINTR ∨ type = MPLINTR then some 8
  else none

/-- From `p` over the entries at `ps`, which begin below `e` and have known types, to `q`. -/
inductive Walk (mem : Addr → UInt8) (e : Addr) : Addr → List Addr → Addr → Prop
  | nil (p : Addr) : Walk mem e p [] p
  | cons {p q size : Addr} {ps : List Addr} (hp : p < e) (hs : entrySize (mem p) = some size)
      (h : Walk mem e (p+size) ps q) : Walk mem e p (p::ps) q

/-- The apicids of the processor entries among `ps`, in order. -/
def processors (mem : Addr → UInt8) (ps : List Addr) : List UInt8 :=
  (ps.filter fun p => mem p = MPPROC).map fun p => mem (p+1)

variable {mem : Addr → UInt8} {e : Addr}

theorem entrySize_pos {type : UInt8} {size : Addr} (h : entrySize type = some size) :
    0 < size.toNat ∧ size.toNat ≤ 20 := by
  unfold entrySize at h
  split_ifs at h <;> cases h <;> decide

theorem entry_known {s : Scan} {size : Addr} (h : entrySize (mem s.p) = some size) :
    (entry mem s).p = s.p+size ∧ (entry mem s).ismp = s.ismp := by
  unfold entrySize at h
  unfold entry
  split_ifs at h ⊢ <;> cases h <;> exact ⟨rfl,rfl⟩

theorem entry_unknown {s : Scan} (h : entrySize (mem s.p) = none) : (entry mem s).p = s.p := by
  unfold entrySize at h
  unfold entry
  split_ifs at h ⊢
  rfl

theorem processors_append (ps ps' : List Addr) :
    processors mem (ps++ps') = processors mem ps++processors mem ps' := by
  rw [processors, List.filter_append, List.map_append]
  rfl

theorem entry_apicids (s : Scan) {l : List UInt8} (hl : s.apicids = l.take NCPU) :
    (entry mem s).apicids = (l++processors mem [s.p]).take NCPU := by
  by_cases hp : mem s.p = MPPROC
  · have hproc : processors mem [s.p] = [mem (s.p+1)] := by simp [processors, hp]
    rw [entry, if_pos hp, hproc, hl]
    dsimp only
    by_cases hlen : l.length < NCPU
    · rw [List.take_of_length_le (by omega), if_pos hlen, List.take_of_length_le (by simp; omega)]
    · rw [if_neg (by rw [List.length_take]; omega), List.take_append_of_le_length (by omega)]
  · have hproc : processors mem [s.p] = [] := by simp [processors, hp]
    have hkeep : (entry mem s).apicids = s.apicids := by
      unfold entry
      split_ifs <;> rfl
    rw [hkeep, hproc, List.append_nil, hl]

theorem scan_stuck (n : ℕ) : ∀ s : Scan, s.p < e → entrySize (mem s.p) = none →
    scan mem e n s = none := by
  induction n with
  | zero =>
    intro s _ _
    rfl
  | succ n ih =>
    intro s hp hs
    have hstay := entry_unknown hs
    rw [scan, if_pos hp]
    exact ih _ (by rw [hstay]; exact hp) (by rw [hstay]; exact hs)

theorem scan_ismp (n : ℕ) : ∀ s s' : Scan, scan mem e n s = some s' → s'.ismp = s.ismp := by
  induction n with
  | zero =>
    intro s s' h
    cases h
  | succ n ih =>
    intro s s' h
    rw [scan] at h
    split_ifs at h with hp
    · cases hs : entrySize (mem s.p) with
      | none =>
        have hstay := entry_unknown hs
        rw [scan_stuck n (entry mem s) (by rw [hstay]; exact hp) (by rw [hstay]; exact hs)] at h
        cases h
      | some size => exact (ih _ _ h).trans (entry_known hs).2
    · cases h
      rfl

theorem Walk.scan {p q : Addr} {ps : List Addr} (h : Walk mem e p ps q) :
    ∀ (s : Scan) (l : List UInt8), s.p = p → s.apicids = l.take NCPU →
      ∃ s' : Scan, s'.p = q ∧ s'.apicids = (l++processors mem ps).take NCPU ∧
        ∀ n, scan mem e (ps.length+n) s = scan mem e n s' := by
  induction h with
  | nil p =>
    intro s l hp hl
    exact ⟨s,hp,by rw [hl]; simp [processors],fun n => by rw [List.length_nil, Nat.zero_add]⟩
  | @cons p q size ps hp hs _ ih =>
    intro s l hsp hl
    subst hsp
    obtain ⟨s',hq,hids,hrun⟩ := ih (entry mem s) _ (entry_known hs).1 (entry_apicids s hl)
    refine ⟨s',hq,?_,?_⟩
    · rw [hids, List.append_assoc, ← processors_append, List.singleton_append]
    · intro n
      rw [List.length_cons, Nat.add_right_comm, Mp.scan, if_pos hp, hrun]

theorem Walk.stuck {p q : Addr} {ps : List Addr} (h : Walk mem e p ps q) (hq : q < e)
    (hu : entrySize (mem q) = none) : ∀ (n : ℕ) (s : Scan), s.p = p → Mp.scan mem e n s = none := by
  induction h with
  | nil p =>
    intro n s hp
    subst hp
    exact scan_stuck n s hq hu
  | cons hp hs _ ih =>
    intro n s hsp
    subst hsp
    cases n with
    | zero => rfl
    | succ n =>
      rw [Mp.scan, if_pos hp]
      exact ih hq hu n _ (entry_known hs).1

theorem Walk.sorted {p q : Addr} {ps : List Addr} (h : Walk mem e p ps q)
    (he : e.toNat+20 ≤ 2^32) : p ≤ q ∧ (∀ a ∈ ps, p ≤ a ∧ a < e) ∧ ps.Pairwise (· < ·) := by
  induction h with
  | nil p => exact ⟨BitVec.le_refl p,by simp,List.Pairwise.nil⟩
  | @cons p q size ps hp hs _ ih =>
    obtain ⟨hle,hall,hpair⟩ := ih
    obtain ⟨hpos,hmax⟩ := entrySize_pos hs
    have hnext : p < p+size := by bv_omega
    refine ⟨by bv_omega,?_,?_⟩
    · intro a ha
      rcases List.mem_cons.mp ha with rfl | ha
      · exact ⟨BitVec.le_refl a,hp⟩
      · have := hall a ha
        exact ⟨by bv_omega,this.2⟩
    · refine List.pairwise_cons.mpr ⟨?_,hpair⟩
      intro a ha
      have := (hall a ha).1
      bv_omega

/-- Every walk goes on to the end of the table or to an entry of unknown type. -/
theorem exists_walk (mem : Addr → UInt8) (he : e.toNat+20 ≤ 2^32) (k : ℕ) : ∀ p : Addr, e.toNat-p.toNat ≤ k →
    ∃ ps q, Walk mem e p ps q ∧ (q < e → entrySize (mem q) = none) := by
  induction k with
  | zero =>
    intro p hk
    exact ⟨[],p,.nil p,fun hp => by bv_omega⟩
  | succ k ih =>
    intro p hk
    by_cases hp : p < e
    · cases hs : entrySize (mem p) with
      | none => exact ⟨[],p,.nil p,fun _ => hs⟩
      | some size =>
        obtain ⟨hpos,hmax⟩ := entrySize_pos hs
        obtain ⟨ps,q,hw,hq⟩ := ih (p+size) (by bv_omega)
        exact ⟨p::ps,q,.cons hp hs hw,hq⟩
    · exact ⟨[],p,.nil p,fun h => absurd h hp⟩

def tableEnd (mem : Addr → UInt8) (conf : Addr) : Addr :=
  conf+BitVec.ofNat 32 (tableLength mem conf)

section
variable {mp conf : Addr} (hc : mpconfig mem = some (mp,conf)) (ioapicid : UInt8)
include hc

theorem mpinit_eq (n : ℕ) : mpinit mem ioapicid n =
    (scan mem (tableEnd mem conf) n ⟨conf+mpconfSize,true,[],ioapicid⟩).map fun s =>
      if !s.ismp then .error .unsuitable
      else .ok ⟨uint mem (conf+36),s.apicids,s.ioapicid,mem (mp+12) ≠ 0⟩ := by
  rw [mpinit, hc]
  rfl

theorem mpinit_suitable (n : ℕ) : mpinit mem ioapicid n ≠ some (.error .unsuitable) := by
  intro h
  rw [mpinit_eq hc] at h
  obtain ⟨s,hs,he⟩ := Option.map_eq_some_iff.mp h
  rw [scan_ismp n _ _ hs] at he
  cases he

theorem mpinit_ends {ps : List Addr} {q : Addr}
    (hw : Walk mem (tableEnd mem conf) (conf+mpconfSize) ps q) (hq : ¬ q < tableEnd mem conf)
    (n : ℕ) : ∃ r : Config, mpinit mem ioapicid (ps.length+(n+1)) = some (.ok r) ∧
      r.apicids = (processors mem ps).take NCPU := by
  obtain ⟨s,hp,hids,hrun⟩ := hw.scan ⟨conf+mpconfSize,true,[],ioapicid⟩ [] rfl rfl
  have hend : scan mem (tableEnd mem conf) (n+1) s = some s := by
    rw [scan, hp, if_neg hq]
  have hismp := scan_ismp _ _ _ ((hrun (n+1)).trans hend)
  rw [mpinit_eq hc, hrun, hend, Option.map_some, hismp]
  exact ⟨_,rfl,hids⟩

end

/-- The table ends at least one entry below the top of the address space. The walk over its
entries visits each one once. If it meets no entry of unknown type, `mpinit` returns with the
apicids of the first `NCPU` processors; otherwise the loop never ends. It never panics. -/
theorem mpinit_walks (mem : Addr → UInt8) (mp conf : Addr) (ioapicid : UInt8)
    (hc : mpconfig mem = some (mp,conf))
    (hroom : conf.toNat+max mpconfSize.toNat (tableLength mem conf)+20 ≤ 2^32) :
    ∃ ps q, Walk mem (tableEnd mem conf) (conf+mpconfSize) ps q ∧ ps.Pairwise (· < ·) ∧
      (¬ q < tableEnd mem conf → ∀ n > ps.length, ∃ r : Config,
        mpinit mem ioapicid n = some (.ok r) ∧ r.apicids = (processors mem ps).take NCPU) ∧
      (q < tableEnd mem conf → entrySize (mem q) = none ∧
        ∀ n, mpinit mem ioapicid n = none) ∧
      ∀ n, mpinit mem ioapicid n ≠ some (.error .unsuitable) := by
  have hend : (tableEnd mem conf).toNat+20 ≤ 2^32 := by
    unfold tableEnd
    bv_omega
  obtain ⟨ps,q,hw,hq⟩ := exists_walk mem hend _ (conf+mpconfSize) le_rfl
  refine ⟨ps,q,hw,(hw.sorted hend).2.2,?_,?_,mpinit_suitable hc ioapicid⟩
  · intro hout n hn
    obtain ⟨k,rfl⟩ := Nat.exists_eq_add_of_lt hn
    exact mpinit_ends hc ioapicid hw hout k
  · intro hin
    refine ⟨hq hin,?_⟩
    intro n
    rw [mpinit_eq hc, hw.stuck hin (hq hin) n _ rfl]
    rfl

/-- A memory with the floating pointer at 0x90000 and the table, with the bytes `rest` behind
its header, at 0x90010. -/
def firmware (length checksum : UInt8) (rest : List UInt8) : Addr → UInt8 := fun a =>
  if a = 0x8000040F then 0x90
  else if a < 0x80090000 then 0
  else ([0x5F,0x4D,0x50,0x5F,0x10,0x00,0x09,0x00,1,4,135,0,0,0,0,0]++
    [0x50,0x43,0x4D,0x50,length,0,4,checksum]++List.replicate 36 0++rest).getD
      (a-0x80090000).toNat 0

def oneCpu : Addr → UInt8 := firmware 64 137 [0,3,0,0,0,0,0,0,0,0,0,0,0,0,0,0,0,0,0,0]

theorem oneCpu_mpconfig : mpconfig oneCpu = some (0x80090000,0x80090010) := by decide +kernel

theorem mpinit_walks_one : ∃ ps q,
    Walk oneCpu (tableEnd oneCpu 0x80090010) (0x80090010+mpconfSize) ps q ∧
      (¬ q < tableEnd oneCpu 0x80090010 → ∀ n > ps.length, ∃ r : Config,
        mpinit oneCpu 0 n = some (.ok r) ∧ r.apicids = (processors oneCpu ps).take NCPU) := by
  obtain ⟨ps,q,hw,-,hend,-⟩ := mpinit_walks oneCpu 0x80090000 0x80090010 0 oneCpu_mpconfig
    (by decide +kernel)
  exact ⟨ps,q,hw,hend⟩

def oneUnknown : Addr → UInt8 := firmware 45 154 [5]

/-- The table is accepted, has an entry of unknown type, and `mpinit` neither returns nor
panics. -/
theorem mpinit_unknown_loops :
    mpconfig oneUnknown = some (0x80090000,0x80090010) ∧
    entrySize (oneUnknown (0x80090010+mpconfSize)) = none ∧
    ∀ n, mpinit oneUnknown 0 n = none := by
  have hc : mpconfig oneUnknown = some (0x80090000,0x80090010) := by decide +kernel
  have hu : entrySize (oneUnknown (0x80090010+mpconfSize)) = none := by decide +kernel
  refine ⟨hc,hu,?_⟩
  intro n
  rw [mpinit_eq hc, scan_stuck n _ (by decide +kernel) hu]
  rfl

end Xv6.Mp
