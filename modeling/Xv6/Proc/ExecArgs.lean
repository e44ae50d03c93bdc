import Xv6.Mem.Copyout
import Xv6.Proc.ExecCall
import Xv6.Proc.ExecImage

/-!
# The argument block

`exec` pushes the argument strings from the end of the stack page downwards, each at an
address that is a multiple of four, and below them the block of words that `main` finds. As
long as everything fits in the page, each `copyout` is one store into its frame. What does
not fit reaches into the guard page and `copyout` refuses it; a string longer than the image
is refused by the kernel pages at the top of the address space, as long as it is not so long
that it starts in front of them.
-/

set_option autoImplicit false

namespace Xv6.ExecArgs
open Xv6.Mmu Xv6.Kalloc Xv6.Paging Xv6.Uvm Xv6.Halting Xv6.Exec Xv6.ExecCall
open Xv6.Copyout Xv6.Ledger

/-- The pages that the arguments can come to: the stack page in front of `sz`, the guard page
in front of it, and pages that are closed to user code but have page tables. -/
structure StackPage (d : PageDir) (sz : ℕ) : Prop where
  aligned : sz%PGSIZE = 0
  room : 2*PGSIZE ≤ sz
  low : sz < KERNBASE
  usable : ∀ a, sz-PGSIZE ≤ a → a < sz → Accessible d a
  guard : ∀ a, sz-2*PGSIZE ≤ a → a < sz-PGSIZE → ¬ Accessible d a
  present : ∀ a < sz, d.walk a ≠ none
  closed : ∀ a, KERNBASE ≤ a → a < 2^32 → ¬ Accessible d a
  device : ∀ a, DEVSPACE ≤ a → a < 2^32 → d.walk a ≠ none
  unaliased : Unaliased d

def At (pg : ℕ → UInt8) (o : ℕ) (bytes : List UInt8) : Prop :=
  ∀ j (hj : j < bytes.length), pg (o+j) = bytes.get ⟨j, hj⟩

section
variable {ph : Phys} {d : PageDir} {sz va : ℕ} {buf : List UInt8}

def stackFrame (d : PageDir) (sz : ℕ) : ℕ := pteFrame (d.leaf (sz-PGSIZE))

theorem StackPage.frame (h : StackPage d sz) {a : ℕ} (h1 : sz-PGSIZE ≤ a) (h2 : a < sz) :
    pteFrame (d.leaf a) = stackFrame d sz ∧ a%PGSIZE = a-(sz-PGSIZE) := by
  have hal := h.aligned
  have hroom := h.room
  have hpage : a/PGSIZE*PGSIZE = sz-PGSIZE := by unfold PGSIZE at *; omega
  refine ⟨by rw [stackFrame, ← hpage, leaf_page],?_⟩
  unfold PGSIZE at *
  omega

theorem StackPage.copyout (h : StackPage d sz) (hne : buf ≠ []) (h1 : sz-PGSIZE ≤ va)
    (h2 : va+buf.length ≤ sz) :
    copyout ph d va buf = .ok (ph.write (stackFrame d sz) (va-(sz-PGSIZE)) buf, true) := by
  have hpos : 0 < buf.length := List.length_pos_iff.mpr hne
  obtain ⟨hf,hoff⟩ := h.frame h1 (by omega)
  have hal := h.aligned
  have hroom := h.room
  have hva : PGROUNDDOWN va = va/PGSIZE*PGSIZE := rfl
  have hsub : va-va/PGSIZE*PGSIZE = va-(sz-PGSIZE) := by unfold PGSIZE at *; omega
  obtain ⟨n,hn⟩ := Nat.exists_eq_succ_of_ne_zero (Nat.pos_iff_ne_zero.mp hpos)
  have hall : buf.length ≤ PGSIZE-(va-(sz-PGSIZE)) := by unfold PGSIZE at *; omega
  rw [Uvm.copyout, hn, copyoutLoop, if_neg hne]
  dsimp only
  rw [hva, uva2ka_accessible ((accessible_page d va).mpr (h.usable va h1 (by omega))), ok_bind,
    leaf_page, hf, hsub, List.drop_eq_nil_of_le hall, List.take_of_length_le hall]
  dsimp only
  cases n with
  | zero => rfl
  | succ n =>
    rw [copyoutLoop, if_pos rfl]

end

/-! ## The strings -/

/-- The room for a string and its NUL. -/
def argSize (arg : List UInt8) : ℕ := (arg.length+4)/4*4

def stringsSize (argv : List (List UInt8)) : ℕ := (argv.map argSize).sum

def blockSize (argv : List (List UInt8)) : ℕ := stringsSize argv+(argv.length+4)*4

/-- The addresses of the strings that are pushed from `sp` on. -/
def pointers : List (List UInt8) → ℕ → List ℕ
  | [], _ => []
  | arg::args, sp => (sp-argSize arg)::pointers args (sp-argSize arg)

/-- The strings stand at their addresses, as offsets from `base`. -/
def Strings (pg : ℕ → UInt8) (base : ℕ) : List (List UInt8) → ℕ → Prop
  | [], _ => True
  | arg::args, sp => At pg (sp-argSize arg-base) (arg++[0]) ∧ Strings pg base args (sp-argSize arg)

theorem Strings.congr {pg pg' : ℕ → UInt8} {base sp : ℕ} {argv : List (List UInt8)}
    (h : Strings pg base argv sp) (hfit : base+stringsSize argv ≤ sp)
    (heq : ∀ i, sp-stringsSize argv-base ≤ i → pg' i = pg i) : Strings pg' base argv sp := by
  induction argv generalizing sp with
  | nil => trivial
  | cons arg args ih =>
    have hsum : stringsSize (arg::args) = argSize arg+stringsSize args := List.sum_cons
    rw [hsum] at hfit heq
    refine ⟨fun j hj => ?_,ih h.2 (by omega) fun i hi => heq i (by omega)⟩
    rw [heq _ (by omega)]
    exact h.1 j hj

theorem pointers_length (argv : List (List UInt8)) (sp : ℕ) : (pointers argv sp).length = argv.length := by
  induction argv generalizing sp with
  | nil => rfl
  | cons arg args ih => rw [pointers, List.length_cons, ih, List.length_cons]

section
variable {d : PageDir} {sz : ℕ}

end

/-! ## The words below the strings -/

def wordAt (pg : ℕ → UInt8) (o : ℕ) : ℕ :=
  (pg o).toNat+256*((pg (o+1)).toNat+256*((pg (o+2)).toNat+256*(pg (o+3)).toNat))

theorem At.append {pg : ℕ → UInt8} {o : ℕ} {bytes rest : List UInt8} (h : At pg o (bytes++rest)) :
    At pg o bytes ∧ At pg (o+bytes.length) rest := by
  constructor
  · intro j hj
    rw [h j (by rw [List.length_append]; omega), List.get_eq_getElem, List.get_eq_getElem,
      List.getElem_append_left hj]
  · intro j hj
    rw [Nat.add_assoc, h (bytes.length+j) (by rw [List.length_append]; omega), List.get_eq_getElem,
      List.get_eq_getElem, List.getElem_append_right (Nat.le_add_right _ _)]
    simp

theorem wordAt_word {pg : ℕ → UInt8} {o n : ℕ} (h : At pg o (word n)) : wordAt pg o = n%2^32 := by
  have h0 := h 0 (by simp [word])
  have h1 := h 1 (by simp [word])
  have h2 := h 2 (by simp [word])
  have h3 := h 3 (by simp [word])
  simp only [word, Nat.add_zero, List.get_eq_getElem, List.getElem_cons_zero, List.getElem_cons_succ]
    at h0 h1 h2 h3
  rw [wordAt, h0, h1, h2, h3]
  simp only [UInt8.toNat_ofNat']
  omega

theorem wordAt_words {pg : ℕ → UInt8} {o : ℕ} {l : List ℕ} (h : At pg o (l.flatMap word)) {k : ℕ}
    (hk : k < l.length) : wordAt pg (o+4*k) = l.get ⟨k, hk⟩%2^32 := by
  induction l generalizing o k with
  | nil => exact absurd hk (Nat.not_lt_zero k)
  | cons n l ih =>
    rw [List.flatMap_cons] at h
    obtain ⟨h1,h2⟩ := h.append
    cases k with
    | zero => exact wordAt_word h1
    | succ k =>
      have := ih (k := k) h2 (by simpa using hk)
      rw [show o+(word n).length+4*k = o+4*(k+1) by simp [word]; ring] at this
      exact this

/-- What the words of the block are. -/
def blockWords (argv : List (List UInt8)) (sz : ℕ) : List ℕ :=
  [0xffffffff, argv.length, sz-stringsSize argv-(argv.length+1)*4]++pointers argv sz++[0]

section
variable {d : PageDir} {sz : ℕ}

theorem size_mod (argv : List (List UInt8)) : stringsSize argv%4 = 0 := by
  induction argv with
  | nil => rfl
  | cons arg args ih =>
    have hsum : stringsSize (arg::args) = argSize arg+stringsSize args := List.sum_cons
    rw [hsum]
    unfold argSize
    omega

end

/-! ## What the program finds -/

/-- The argument block as the program reads it from its stack pointer on. -/
structure Delivered (mem : ℕ → UInt8) (sz esp : ℕ) (argv : List (List UInt8)) : Prop where
  page : sz%PGSIZE = 0 ∧ sz-PGSIZE ≤ esp ∧ esp+4*(argv.length+4) ≤ sz
  aligned : esp%4 = 0
  ret : wordAt mem esp = 0xffffffff
  count : wordAt mem (esp+4) = argv.length
  vector : wordAt mem (esp+8) = esp+12
  null : wordAt mem (esp+12+4*argv.length) = 0
  string : ∀ i (hi : i < argv.length), At mem (wordAt mem (esp+12+4*i)) (argv.get ⟨i, hi⟩++[0]) ∧
    wordAt mem (esp+12+4*i)%4 = 0 ∧ esp+4*(argv.length+4) ≤ wordAt mem (esp+12+4*i) ∧
    wordAt mem (esp+12+4*i)+(argv.get ⟨i, hi⟩).length+1 ≤ sz
  disjoint : ∀ i j (_ : i < j) (hj : j < argv.length),
    wordAt mem (esp+12+4*j)+(argv.get ⟨j, hj⟩).length+1 ≤ wordAt mem (esp+12+4*i)

theorem wordAt_congr {mem mem' : ℕ → UInt8} {sz o : ℕ} (h : ∀ a < sz, mem' a = mem a)
    (ho : o+4 ≤ sz) : wordAt mem' o = wordAt mem o := by
  rw [wordAt, wordAt, h o (by omega), h (o+1) (by omega), h (o+2) (by omega), h (o+3) (by omega)]

theorem Delivered.congr {mem mem' : ℕ → UInt8} {sz esp : ℕ} {argv : List (List UInt8)}
    (h : Delivered mem sz esp argv) (heq : ∀ a < sz, mem' a = mem a) : Delivered mem' sz esp argv := by
  have hend := h.page.2.2
  have hword : ∀ i ≤ argv.length, wordAt mem' (esp+12+4*i) = wordAt mem (esp+12+4*i) :=
    fun i hi => wordAt_congr heq (by omega)
  refine ⟨h.page,h.aligned,?_,?_,?_,?_,fun i hi => ?_,fun i j hij hj => ?_⟩
  · rw [wordAt_congr heq (by omega), h.ret]
  · rw [wordAt_congr heq (by omega), h.count]
  · rw [wordAt_congr heq (by omega), h.vector]
  · rw [hword _ (le_refl _), h.null]
  · rw [hword i hi.le]
    obtain ⟨hat,h4,hlow,hhigh⟩ := h.string i hi
    refine ⟨fun j hj => ?_,h4,hlow,hhigh⟩
    rw [List.length_append, List.length_singleton] at hj
    rw [heq _ (by omega)]
    exact hat j (by simpa using hj)
  · rw [hword i (by omega), hword j hj.le]
    exact h.disjoint i j hij hj

theorem pointers_bounds {argv : List (List UInt8)} {sp : ℕ} (h4 : sp%4 = 0) (hfit : stringsSize argv ≤ sp)
    {i : ℕ} (hi : i < argv.length) (hp : i < (pointers argv sp).length) :
    (pointers argv sp).get ⟨i, hp⟩%4 = 0 ∧ sp-stringsSize argv ≤ (pointers argv sp).get ⟨i, hp⟩ ∧
      (pointers argv sp).get ⟨i, hp⟩+(argv.get ⟨i, hi⟩).length+1 ≤ sp := by
  induction argv generalizing sp i with
  | nil => exact absurd hi (Nat.not_lt_zero i)
  | cons arg args ih =>
    have hsum : stringsSize (arg::args) = argSize arg+stringsSize args := List.sum_cons
    have hsize : argSize arg%4 = 0 ∧ arg.length+1 ≤ argSize arg := by
      unfold argSize
      omega
    rw [hsum] at hfit ⊢
    cases i with
    | zero =>
      change (sp-argSize arg)%4 = 0 ∧ sp-(argSize arg+stringsSize args) ≤ sp-argSize arg ∧
        sp-argSize arg+arg.length+1 ≤ sp
      omega
    | succ i =>
      have hrec := @ih (sp-argSize arg) (by omega) (by omega) i (show i < args.length by simpa using hi)
        (by rw [pointers_length]; simpa using hi)
      change (pointers args (sp-argSize arg)).get ⟨i, _⟩%4 = 0 ∧
        sp-(argSize arg+stringsSize args) ≤ (pointers args (sp-argSize arg)).get ⟨i, _⟩ ∧
        (pointers args (sp-argSize arg)).get ⟨i, _⟩+(args.get ⟨i, _⟩).length+1 ≤ sp
      omega

theorem pointers_disjoint {argv : List (List UInt8)} {sp : ℕ} (h4 : sp%4 = 0)
    (hfit : stringsSize argv ≤ sp) {i j : ℕ} (hij : i < j) (hj : j < argv.length)
    (hpi : i < (pointers argv sp).length) (hpj : j < (pointers argv sp).length) :
    (pointers argv sp).get ⟨j, hpj⟩+(argv.get ⟨j, hj⟩).length+1 ≤ (pointers argv sp).get ⟨i, hpi⟩ := by
  induction argv generalizing sp i j with
  | nil => exact absurd hj (Nat.not_lt_zero j)
  | cons arg args ih =>
    have hsum : stringsSize (arg::args) = argSize arg+stringsSize args := List.sum_cons
    have hsize : argSize arg%4 = 0 := by
      unfold argSize
      omega
    rw [hsum] at hfit
    obtain ⟨j,rfl⟩ := Nat.exists_eq_succ_of_ne_zero (show j ≠ 0 by omega)
    have hja : j < args.length := by simpa using hj
    cases i with
    | zero => exact (pointers_bounds (by omega) (by omega) hja (by rw [pointers_length]; exact hja)).2.2
    | succ i =>
      exact @ih (sp-argSize arg) (by omega) (by omega) i j (by omega) hja
        (by rw [pointers_length]; omega) (by rw [pointers_length]; exact hja)

theorem Strings.get {pg : ℕ → UInt8} {base sp : ℕ} {argv : List (List UInt8)} (h : Strings pg base argv sp)
    {i : ℕ} (hi : i < argv.length) (hp : i < (pointers argv sp).length) :
    At pg ((pointers argv sp).get ⟨i, hp⟩-base) (argv.get ⟨i, hi⟩++[0]) := by
  induction argv generalizing sp i with
  | nil => exact absurd hi (Nat.not_lt_zero i)
  | cons arg args ih =>
    cases i with
    | zero => exact h.1
    | succ i =>
      exact ih h.2 (show i < args.length by simpa using hi) (by rw [pointers_length]; simpa using hi)

theorem delivered {pg mem : ℕ → UInt8} {sz : ℕ} {argv : List (List UInt8)} (hal : sz%PGSIZE = 0)
    (hroom : 2*PGSIZE ≤ sz) (hlow : sz < KERNBASE) (hmax : argv.length < MAXARG)
    (hfit : blockSize argv ≤ PGSIZE)
    (hs : Strings pg (sz-PGSIZE) argv sz)
    (hw : At pg (PGSIZE-blockSize argv) ((blockWords argv sz).flatMap word))
    (hmem : ∀ a, sz-PGSIZE ≤ a → a < sz → mem a = pg (a-(sz-PGSIZE))) :
    Delivered mem sz (sz-blockSize argv) argv := by
  have hp : PGSIZE = 4096 := rfl
  have hk : KERNBASE = 2147483648 := rfl
  have hsize : blockSize argv = stringsSize argv+(argv.length+4)*4 := rfl
  have h4 : sz%4 = 0 := by unfold PGSIZE at hal; omega
  have hm4 := size_mod argv
  have hlen : (pointers argv sz).length = argv.length := pointers_length argv sz
  have hcount : (blockWords argv sz).length = argv.length+4 := by
    rw [blockWords]
    simp [hlen]
  -- the words of the block, at their addresses
  have hword : ∀ k (hk : k < (blockWords argv sz).length), wordAt mem (sz-blockSize argv+4*k) =
      (blockWords argv sz).get ⟨k, hk⟩%2^32 := by
    intro k hk
    rw [← wordAt_words hw hk, wordAt, wordAt]
    have hat : ∀ j < 4, mem (sz-blockSize argv+4*k+j) = pg (PGSIZE-blockSize argv+4*k+j) := by
      intro j hj
      rw [hmem _ (by omega) (by omega), show sz-blockSize argv+4*k+j-(sz-PGSIZE) =
        PGSIZE-blockSize argv+4*k+j by omega]
    rw [hat 1 (by omega), hat 2 (by omega), hat 3 (by omega)]
    rw [show mem (sz-blockSize argv+4*k) = pg (PGSIZE-blockSize argv+4*k) from hat 0 (by omega)]
  have hptr : ∀ i (hi : i < argv.length) (hpi : i < (pointers argv sz).length),
      wordAt mem (sz-blockSize argv+12+4*i) = (pointers argv sz).get ⟨i, hpi⟩ := by
    intro i hi hpi
    have hb := (pointers_bounds h4 (by omega) hi hpi).2.2
    have hget : (blockWords argv sz).get ⟨3+i, by omega⟩ = (pointers argv sz).get ⟨i, hpi⟩ := by
      simp only [blockWords, List.get_eq_getElem]
      rw [List.getElem_append_left (by simp [hlen]; omega), List.getElem_append_right (by simp)]
      simp
    rw [show sz-blockSize argv+12+4*i = sz-blockSize argv+4*(3+i) by omega, hword (3+i) (by omega),
      hget, Nat.mod_eq_of_lt (by omega)]
  refine ⟨⟨hal,by omega,by omega⟩,by omega,?_,?_,?_,?_,fun i hi => ?_,fun i j hij hj => ?_⟩
  · have h0 := hword 0 (by omega)
    exact h0
  · have h1 := hword 1 (by omega)
    have hm : MAXARG = 32 := rfl
    rw [show (blockWords argv sz).get ⟨1, by omega⟩ = argv.length from rfl,
      Nat.mod_eq_of_lt (by omega)] at h1
    exact h1
  · have h2 := hword 2 (by omega)
    rw [show (blockWords argv sz).get ⟨2, by omega⟩ = sz-stringsSize argv-(argv.length+1)*4 from rfl,
      Nat.mod_eq_of_lt (by omega)] at h2
    rw [h2]
    omega
  · have h3 := hword (3+argv.length) (by omega)
    have hget : (blockWords argv sz).get ⟨3+argv.length, by omega⟩ = 0 := by
      simp only [blockWords, List.get_eq_getElem]
      rw [List.getElem_append_right (by simp [hlen]; omega)]
      simp
    rw [hget, Nat.zero_mod] at h3
    rw [show sz-blockSize argv+12+4*argv.length = sz-blockSize argv+4*(3+argv.length) by omega, h3]
  · have hpi : i < (pointers argv sz).length := by omega
    obtain ⟨hb1,hb2,hb3⟩ := pointers_bounds h4 (by omega) hi hpi
    rw [hptr i hi hpi]
    refine ⟨fun j hj => ?_,hb1,by omega,hb3⟩
    have hj' : j < (argv.get ⟨i, hi⟩).length+1 := by simpa using hj
    rw [hmem _ (by omega) (by omega), ← hs.get hi hpi j hj, show
      (pointers argv sz).get ⟨i, hpi⟩+j-(sz-PGSIZE) = (pointers argv sz).get ⟨i, hpi⟩-(sz-PGSIZE)+j by omega]
  · rw [hptr i (by omega) (by omega), hptr j hj (by omega)]
    exact pointers_disjoint h4 (by omega) hij hj _ _

end Xv6.ExecArgs
