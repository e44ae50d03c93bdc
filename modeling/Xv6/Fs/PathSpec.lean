import Xv6.Fs.Paths

/-!
# Path resolution

Each round of `namex` takes one reference to the next inode and gives one up, so that the
counts of the cache differ from those at the start by one for the inode at hand. The cache
has room for the two that are held in between, and no `iput` frees an inode, because what a
directory names has a link and the current directory is referenced elsewhere.
-/

set_option autoImplicit false

namespace Xv6.Fs

variable {sb : Super} {s s' s₀ : Sys} {k : Fin NINODE}

/-! ### References -/

def Entry.refsTo (e : Entry) (i : ℕ) : ℕ := if e.inum = i then e.ref else 0

def Sys.refOf (s : Sys) (i : ℕ) : ℕ := ∑ k, (s.cache k).refsTo i

def Sys.inUse (s : Sys) : Finset (Fin NINODE) := Finset.univ.filter fun k => 0 < (s.cache k).ref

theorem refOf_set (s : Sys) (k : Fin NINODE) (e : Entry) (i : ℕ) :
    (s.set k e).refOf i+(s.cache k).refsTo i = s.refOf i+e.refsTo i := by
  have hsum := Tally.sum_update (fun e : Entry => e.refsTo i) s.cache k e
  rw [Sys.refOf, Sys.refOf]
  exact hsum

theorem refOf_ref (s : Sys) (k : Fin NINODE) (n i : ℕ) :
    (s.set k { s.cache k with ref := n }).refOf i+(if (s.cache k).inum = i then (s.cache k).ref else 0) =
      s.refOf i+if (s.cache k).inum = i then n else 0 := refOf_set s k _ i

theorem refOf_pos {i : ℕ} : 0 < s.refOf i ↔ ∃ k, 0 < (s.cache k).ref ∧ (s.cache k).inum = i := by
  rw [Sys.refOf, Finset.sum_pos_iff]
  constructor
  · rintro ⟨k,-,hk⟩
    rw [Entry.refsTo] at hk
    split at hk
    · next hi => exact ⟨k,hk,hi⟩
    · cases hk
  · rintro ⟨k,hk,hi⟩
    exact ⟨k,Finset.mem_univ k,by rw [Entry.refsTo, if_pos hi]; exact hk⟩

theorem Coherent.refOf_entry (hc : Coherent sb s) (hk : 0 < (s.cache k).ref) :
    s.refOf (s.cache k).inum = (s.cache k).ref := by
  rw [Sys.refOf, Finset.sum_eq_single k]
  · rw [Entry.refsTo, if_pos rfl]
  · intro l _ hlk
    rw [Entry.refsTo]
    split
    · next hi =>
      by_contra hne
      exact hlk (hc.one l k (by omega) hk hi)
    · rfl
  · exact fun h => absurd (Finset.mem_univ k) h

theorem Coherent.free_entry (hc : Coherent sb s) {i : ℕ} (hroom : s₀.inUse.card+2 ≤ NINODE)
    (hcount : ∀ j, s.refOf j ≤ s₀.refOf j+if i = j then 1 else 0) : ∃ k, (s.cache k).ref = 0 := by
  by_contra hno
  have hall : ∀ k, 0 < (s.cache k).ref := fun k => Nat.pos_of_ne_zero fun h0 => hno ⟨k,h0⟩
  have hinj : Function.Injective fun k => (s.cache k).inum := fun k l hkl => hc.one k l (hall k) (hall l) hkl
  have hsub : Finset.univ.image (fun k => (s.cache k).inum) ⊆
      insert i (s₀.inUse.image fun k => (s₀.cache k).inum) := by
    intro j hj
    obtain ⟨k,-,rfl⟩ := Finset.mem_image.mp hj
    have hpos := refOf_pos.mpr ⟨k,hall k,rfl⟩
    have hle := hcount (s.cache k).inum
    rw [Finset.mem_insert]
    split at hle
    · next hi => exact .inl hi.symm
    · obtain ⟨l,hl,he⟩ := refOf_pos.mp (show 0 < s₀.refOf (s.cache k).inum by omega)
      exact .inr (Finset.mem_image.mpr ⟨l,Finset.mem_filter.mpr ⟨Finset.mem_univ l,hl⟩,he⟩)
  have hcard := Finset.card_le_card hsub
  rw [Finset.card_image_of_injective _ hinj, Finset.card_univ, Fintype.card_fin] at hcard
  have h1 := Finset.card_insert_le i (s₀.inUse.image fun k => (s₀.cache k).inum)
  have h2 := Finset.card_image_le (s := s₀.inUse) (f := fun k => (s₀.cache k).inum)
  omega

/-- A reference to inode `j` is taken in entry `l`. -/
structure Got (sb : Super) (s s' : Sys) (l : Fin NINODE) (j : ℕ) : Prop where
  store : s'.store = s.store
  coherent : Coherent sb s'
  ref : 0 < (s'.cache l).ref
  inum : (s'.cache l).inum = j
  counts : ∀ x, s'.refOf x = s.refOf x+if j = x then 1 else 0
  others : ∀ k, 0 < (s.cache k).ref → 0 < (s'.cache k).ref ∧ (s'.cache k).inum = (s.cache k).inum

theorem Coherent.idup (hc : Coherent sb s) (hk : 0 < (s.cache k).ref) :
    Got sb s (s.idup k) k (s.cache k).inum := by
  refine ⟨rfl,hc.replace ?_ ?_ (fun _ _ _ => rfl),?_,?_,fun x => ?_,fun l hl => ?_⟩
  · exact fun _ m hmk hm heq => hmk (hc.one m k hm hk heq)
  · exact fun _ hv => hc.loaded k ⟨hk,hv⟩
  · simp [Sys.idup, Sys.set]
  · simp [Sys.idup, Sys.set]
  · have hsum := refOf_ref s k ((s.cache k).ref+1) x
    change (s.set k _).refOf x = _
    by_cases hx : (s.cache k).inum = x
    · rw [if_pos hx, if_pos hx] at hsum
      rw [if_pos hx]
      omega
    · rw [if_neg hx, if_neg hx] at hsum
      rw [if_neg hx]
      omega
  · by_cases hlk : l = k
    · subst hlk
      simp [Sys.idup, Sys.set]
    · simp [Sys.idup, Sys.set, Function.update_of_ne hlk, hl]

theorem iget_runs (hc : Coherent sb s) (hfree : ∃ k, (s.cache k).ref = 0) (j : ℕ) :
    ∃ s' l, s.iget j = .ok (s', l) ∧ Got sb s s' l j := by
  rw [Sys.iget]
  split
  · next l hf =>
    obtain ⟨hl,rfl⟩ : 0 < (s.cache l).ref ∧ (s.cache l).inum = j := by simpa using List.find?_some hf
    exact ⟨s.idup l,l,rfl,hc.idup hl⟩
  · next hnone =>
    have hnew : ∀ l, 0 < (s.cache l).ref → (s.cache l).inum ≠ j := by
      intro l hl heq
      have := List.find?_eq_none.mp hnone l (List.mem_finRange l)
      simp [hl, heq] at this
    split
    · next hfull =>
      obtain ⟨k,hk⟩ := hfree
      have := List.find?_eq_none.mp hfull k (List.mem_finRange k)
      simp [hk] at this
    · next l hf =>
      have hl : (s.cache l).ref = 0 := by simpa using List.find?_some hf
      refine ⟨_,l,rfl,rfl,hc.replace ?_ ?_ (fun _ _ _ => rfl),?_,?_,fun x => ?_,fun k hk => ?_⟩
      · exact fun _ m _ hm => hnew m hm
      · exact fun _ hv => by cases hv
      · simp [Sys.set]
      · simp [Sys.set]
      · have := refOf_set s l { s.cache l with inum := j, ref := 1, valid := false } x
        simp only [Entry.refsTo, hl, ite_self, Nat.add_zero] at this
        exact this
      · have hkl : k ≠ l := fun h => by rw [h, hl] at hk; exact absurd hk (Nat.lt_irrefl 0)
        simp [Sys.set, Function.update_of_ne hkl, hk]

/-- An `iput` that frees nothing. -/
structure Gave (sb : Super) (s s' : Sys) (k : Fin NINODE) : Prop where
  store : s'.store = s.store
  coherent : Coherent sb s'
  counts : ∀ x, s'.refOf x+(if (s.cache k).inum = x then 1 else 0) = s.refOf x
  inums : ∀ l, (s'.cache l).inum = (s.cache l).inum
  refs : ∀ l, (s'.cache l).ref = if l = k then (s.cache k).ref-1 else (s.cache l).ref

theorem iput_runs (hc : Coherent sb s) (hk : 0 < (s.cache k).ref)
    (hstay : (dinode sb s.store.disk (s.cache k).inum).nlink ≠ 0 ∨ 1 < (s.cache k).ref) :
    ∃ s', s.iput sb k = .ok s' ∧ Gave sb s s' k := by
  have hno : ¬ ((s.cache k).valid ∧ (s.cache k).ip.nlink = 0 ∧ (s.cache k).ref = 1) := by
    rintro ⟨hv,hn,hr⟩
    rw [(hc.loaded k ⟨hk,hv⟩).2.1] at hn
    rcases hstay with h | h
    · exact h hn
    · omega
  refine ⟨s.set k { s.cache k with ref := (s.cache k).ref-1 },?_,rfl,hc.replace ?_ ?_ (fun _ _ _ => rfl),
    fun x => ?_,fun l => ?_,fun l => ?_⟩
  · rw [Sys.iput, if_neg hno]
    rfl
  · exact fun _ l hlk hl heq => hlk (hc.one l k hl hk heq)
  · exact fun _ hv => hc.loaded k ⟨hk,hv⟩
  · have := refOf_ref s k ((s.cache k).ref-1) x
    by_cases hx : (s.cache k).inum = x
    · rw [if_pos hx, if_pos hx] at this
      rw [if_pos hx]
      omega
    · rw [if_neg hx, if_neg hx] at this
      rw [if_neg hx]
      omega
  · by_cases hlk : l = k
    · subst hlk
      simp [Sys.set]
    · simp [Sys.set, Function.update_of_ne hlk]
  · by_cases hlk : l = k
    · subst hlk
      simp [Sys.set]
    · simp [Sys.set, hlk]

/-! ### One round of the loop -/

/-- The directories are whole, and what they name and the root are inodes that are in use. -/
structure Intact (sb : Super) (s : Sys) : Prop where
  root : ROOTINO < sb.ninodes ∧ (dinode sb s.store.disk ROOTINO).type ≠ 0 ∧
    ((dinode sb s.store.disk ROOTINO).nlink ≠ 0 ∨ 0 < s.refOf ROOTINO)
  filled : ∀ i < sb.ninodes, (dinode sb s.store.disk i).type = T_DIR →
    Filled (slotRef s.store.disk (dinode sb s.store.disk i)) (dinode sb s.store.disk i).nblocks
  whole : ∀ i < sb.ninodes, (dinode sb s.store.disk i).type = T_DIR →
    (dinode sb s.store.disk i).nentries*direntSize = (dinode sb s.store.disk i).size.toNat
  named : ∀ i < sb.ninodes, (dinode sb s.store.disk i).type = T_DIR →
    ∀ name j, lookup s.store.disk (dinode sb s.store.disk i) name = some j →
      j < sb.ninodes ∧ (dinode sb s.store.disk j).type ≠ 0 ∧
        ((dinode sb s.store.disk j).nlink ≠ 0 ∨ 0 < s.refOf j)

/-- The loop is at inode `i` in entry `ip`, with the locks in `held`. -/
structure At (sb : Super) (s₀ : Sys) (held : List (Fin NINODE)) (v : View) (ip : Fin NINODE) (i : ℕ) :
    Prop where
  held : v.held = held
  store : v.sys.store = s₀.store
  coherent : Coherent sb v.sys
  ref : 0 < (v.sys.cache ip).ref
  inum : (v.sys.cache ip).inum = i
  counts : ∀ j, v.sys.refOf j = s₀.refOf j+if i = j then 1 else 0
  known : i < sb.ninodes ∧ (dinode sb s₀.store.disk i).type ≠ 0
  stays : (dinode sb s₀.store.disk i).nlink ≠ 0 ∨ 0 < s₀.refOf i

/-- Nothing but a reference to `r` is left over. -/
structure Finished (s₀ : Sys) (v : View) (r : Option (Fin NINODE)) (t : Option ℕ) : Prop where
  held : v.held = []
  store : v.sys.store = s₀.store
  found : r.map (fun k => (v.sys.cache k).inum) = t
  ref : ∀ k, r = some k → 0 < (v.sys.cache k).ref
  counts : ∀ j, v.sys.refOf j = s₀.refOf j+if t = some j then 1 else 0

variable {v v' : View} {ip next : Fin NINODE} {i j : ℕ} {held : List (Fin NINODE)}

theorem At.ilock (h : At sb s₀ [] v ip i) :
    ∃ v', v.ilock sb ip = .ok v' ∧ At sb s₀ [ip] v' ip i ∧
      (v'.sys.cache ip).ip = dinode sb s₀.store.disk i := by
  have hfree : ip ∉ v.held := by simp [h.held]
  have hlift : v.ilock sb ip = (Stop.lift (v.sys.ilock sb ip)).bind fun s => .ok ⟨s,ip::v.held⟩ := if_neg hfree
  have href := h.ref
  rw [Sys.ilock, if_neg (by omega)] at hlift
  split at hlift
  · next hv =>
    have hld := h.coherent.loaded ip ⟨h.ref,hv⟩
    refine ⟨_,hlift,⟨by rw [h.held],h.store,h.coherent,h.ref,h.inum,h.counts,h.known,h.stays⟩,?_⟩
    change (v.sys.cache ip).ip = _
    rw [hld.2.1, h.store, h.inum]
  · have hd : dinode sb v.sys.store.disk (v.sys.cache ip).inum = dinode sb s₀.store.disk i := by
      rw [h.store, h.inum]
    dsimp only at hlift
    rw [hd, if_neg h.known.2] at hlift
    have hself : (v.sys.set ip { v.sys.cache ip with valid := true, ip := dinode sb s₀.store.disk i }).cache ip =
        { v.sys.cache ip with valid := true, ip := dinode sb s₀.store.disk i } := Function.update_self ..
    refine ⟨_,hlift,⟨by rw [h.held],h.store,?_,?_,?_,?_,h.known,h.stays⟩,?_⟩
    · refine h.coherent.replace ?_ ?_ (fun _ _ _ => rfl)
      · exact fun _ l hlk hl heq => hlk (h.coherent.one l ip hl h.ref heq)
      · exact fun _ _ => ⟨by rw [h.inum]; exact h.known.1,by rw [hd],h.known.2⟩
    · change 0 < ((v.sys.set ip _).cache ip).ref
      rw [hself]
      exact h.ref
    · change ((v.sys.set ip _).cache ip).inum = i
      rw [hself]
      exact h.inum
    · intro j
      have := refOf_set v.sys ip { v.sys.cache ip with valid := true, ip := dinode sb s₀.store.disk i } j
      rw [← h.counts]
      exact Nat.add_right_cancel this
    · change ((v.sys.set ip _).cache ip).ip = _
      rw [hself]

theorem At.iunlock (h : At sb s₀ [ip] v ip i) :
    v.iunlock ip = .ok { v with held := [] } ∧ At sb s₀ [] { v with held := [] } ip i := by
  have href := h.ref
  refine ⟨?_,rfl,h.store,h.coherent,h.ref,h.inum,h.counts,h.known,h.stays⟩
  rw [View.iunlock, if_neg (by rw [h.held]; simp; omega), h.held]
  simp

theorem At.finished (h : At sb s₀ [] v ip i) : Finished s₀ v (some ip) (some i) where
  held := h.held
  store := h.store
  found := by rw [Option.map_some, h.inum]
  ref := by
    rintro k ⟨⟩
    exact h.ref
  counts := by
    intro j
    rw [h.counts]
    simp only [Option.some.injEq]

theorem At.iput (h : At sb s₀ [] v ip i) :
    ∃ v', v.iput sb ip = .ok v' ∧ Finished s₀ v' none none := by
  have href : v.sys.refOf i = (v.sys.cache ip).ref := by
    rw [← h.inum]
    exact h.coherent.refOf_entry h.ref
  have hcount := h.counts i
  rw [if_pos rfl] at hcount
  obtain ⟨s',hs,hg⟩ := iput_runs h.coherent h.ref (by
    rw [h.store, h.inum]
    exact h.stays.imp_right fun _ => by omega)
  refine ⟨{ v with sys := s' },?_,h.held,hg.store.trans h.store,rfl,(by rintro k ⟨⟩),fun j => ?_⟩
  · rw [View.iput, if_neg (by simp [h.held]), hs]
    rfl
  · have h1 := hg.counts j
    have h2 := h.counts j
    rw [h.inum] at h1
    change s'.refOf j = s₀.refOf j+0
    omega

theorem At.iunlockput (h : At sb s₀ [ip] v ip i) :
    ∃ v', v.iunlockput sb ip = .ok v' ∧ Finished s₀ v' none none := by
  rw [View.iunlockput, h.iunlock.1]
  exact h.iunlock.2.iput

theorem At.dirlookup (h : At sb s₀ [ip] v ip i) (hin : Intact sb s₀) (hroom : s₀.inUse.card+2 ≤ NINODE)
    (hip : (v.sys.cache ip).ip = dinode sb s₀.store.disk i) (ht : (dinode sb s₀.store.disk i).type = T_DIR)
    (name : List UInt8) :
    (lookup s₀.store.disk (dinode sb s₀.store.disk i) name = none ∧ v.dirlookup sb ip name = .ok (v, none)) ∨
      ∃ j s' next, lookup s₀.store.disk (dinode sb s₀.store.disk i) name = some j ∧
        v.dirlookup sb ip name = .ok ({ v with sys := s' }, some next) ∧ Got sb v.sys s' next j := by
  have hloop := lookupLoop_eq sb (hin.filled i h.known.1 ht) (by rw [ht]; decide) name
    ((dinode sb s₀.store.disk i).nentries+1) 0 _ (Nat.le_succ _) (by rw [Nat.zero_add]; exact hin.whole i h.known.1 ht)
  rw [Nat.zero_mul, ← List.range_eq_range'] at hloop
  have hput : v.sys.put ip s₀.store (dinode sb s₀.store.disk i) = v.sys := by
    rw [Sys.put, ← hip, ← h.store]
    simp
  have hlook : Fs.dirlookup sb s₀.store (dinode sb s₀.store.disk i) name =
      lookupLoop sb name ((dinode sb s₀.store.disk i).nentries+1) s₀.store (dinode sb s₀.store.disk i) 0 :=
    if_pos ht
  rw [View.dirlookup, hip, h.store, hlook, hloop, lookup]
  generalize List.find? _ _ = r
  cases r with
  | none =>
    refine .inl ⟨rfl,?_⟩
    change Except.ok ({ v with sys := v.sys.put ip s₀.store (dinode sb s₀.store.disk i) }, none) = _
    rw [hput]
  | some k =>
    obtain ⟨s',next,hs,hg⟩ := iget_runs h.coherent (h.coherent.free_entry hroom fun j => (h.counts j).le)
      (direntInum (entryAt s₀.store.disk (dinode sb s₀.store.disk i) k))
    refine .inr ⟨_,s',next,rfl,?_,hg⟩
    change (Stop.lift ((v.sys.put ip s₀.store (dinode sb s₀.store.disk i)).iget _)).bind _ = _
    rw [hput, hs]
    rfl

/-- The step to the next inode: its reference is taken before the other one is given up. -/
theorem At.step (h : At sb s₀ [ip] v ip i) (hg : Got sb v.sys s' next j)
    (hj : j < sb.ninodes ∧ (dinode sb s₀.store.disk j).type ≠ 0 ∧
      ((dinode sb s₀.store.disk j).nlink ≠ 0 ∨ 0 < s₀.refOf j)) :
    ∃ v', View.iunlockput sb { v with sys := s' } ip = .ok v' ∧ At sb s₀ [] v' next j := by
  obtain ⟨href,hinum⟩ := hg.others ip h.ref
  have hone : s'.refOf i = (s'.cache ip).ref := by
    rw [← h.inum, ← hinum]
    exact hg.coherent.refOf_entry href
  have hsum : ∀ x, s'.refOf x = s₀.refOf x+(if i = x then 1 else 0)+if j = x then 1 else 0 := by
    intro x
    rw [hg.counts, h.counts]
  have hi := hsum i
  rw [if_pos rfl] at hi
  obtain ⟨s'',hs,hput⟩ := iput_runs hg.coherent href (by
    rw [hg.store, h.store, hinum, h.inum]
    exact h.stays.imp_right fun _ => by omega)
  refine ⟨⟨s'',[]⟩,?_,rfl,(hput.store.trans hg.store).trans h.store,hput.coherent,?_,?_,fun x => ?_,
    ⟨hj.1,hj.2.1⟩,hj.2.2⟩
  · have hunlock : View.iunlock { v with sys := s' } ip = .ok ⟨s',[]⟩ := by
      rw [View.iunlock, if_neg (by rw [h.held]; simp; omega), h.held]
      simp
    rw [View.iunlockput, hunlock]
    change (Stop.lift (s'.iput sb ip)).bind _ = _
    rw [hs]
    rfl
  · rw [hput.refs]
    split
    · next heq =>
      have hij : j = i := by rw [← hg.inum, heq, hinum, h.inum]
      rw [if_pos hij] at hi
      omega
    · exact hg.ref
  · rw [hput.inums, hg.inum]
  · have h1 := hput.counts x
    rw [hinum, h.inum] at h1
    have h2 := hsum x
    change s''.refOf x = _
    omega

/-! ### Whole paths -/

def target (sb : Super) (d : Disk) (parent : Bool) (i : ℕ) (cs : List (List UInt8)) : Option ℕ :=
  if parent then resolveParent sb d i cs else resolve sb d i cs

variable {d : Disk} {parent : Bool} {c : List UInt8} {cs : List (List UInt8)}

theorem target_not_dir (ht : (dinode sb d i).type ≠ T_DIR) : target sb d parent i (c::cs) = none := by
  cases parent with
  | false => exact if_neg ht
  | true =>
    cases cs with
    | nil => simp [target, resolveParent, resolve, ht]
    | cons c' cs => simp [target, resolveParent, resolve, ht]

theorem target_parent (ht : (dinode sb d i).type = T_DIR) : target sb d true i [c] = some i := by
  simp [target, resolveParent, resolve, ht]

theorem target_cons (ht : (dinode sb d i).type = T_DIR) (hmore : ¬ (parent = true ∧ cs = [])) :
    target sb d parent i (c::cs) =
      (lookup d (dinode sb d i) c).bind fun j => target sb d parent j cs := by
  cases parent with
  | false => exact if_pos ht
  | true =>
    have hcs : cs ≠ [] := fun h => hmore ⟨rfl,h⟩
    simp only [target, if_true, resolveParent, List.cons_ne_nil, if_false, hcs,
      List.dropLast_cons_of_ne_nil hcs, resolve, ht]
    cases lookup d (dinode sb d i) c with
    | none => rfl
    | some j => rfl

theorem lookup_shorten (ip : Inode) (name : List UInt8) : lookup d ip (shorten name) = lookup d ip name := by
  have hidem : shorten (shorten name) = shorten name := by
    rw [shorten, shorten, List.take_of_length_le, List.takeWhile_idem]
    exact (List.takeWhile_sublist _).length_le.trans (List.length_take_le _ _)
  rw [lookup, lookup, hidem]

theorem namexLoop_runs (hin : Intact sb s₀) (hroom : s₀.inUse.card+2 ≤ NINODE) (parent : Bool)
    (path name : List UInt8) (h0 : 0 ∉ path) (h : At sb s₀ [] v ip i) :
    ∃ v' r name', namexLoop sb parent path name v ip = .ok (v', r, name') ∧
      Finished s₀ v' r (target sb s₀.store.disk parent i (components path)) ∧
      (parent = true → r ≠ none → (components path).getLast? = some (shorten name')) := by
  induction hn : path.length using Nat.strong_induction_on generalizing path name v ip i with
  | h n ih =>
  have hspec := skipelem_spec name h0
  rw [namexLoop]
  split
  · next hs =>
    have hc : components path = [] := by
      rcases hspec with ⟨-,hc⟩ | ⟨rest,name',c,hs',-⟩
      · exact hc
      · cases hs.symm.trans hs'
    rw [hc]
    cases parent with
    | false => exact ⟨v,some ip,name,rfl,h.finished,fun hp => by cases hp⟩
    | true =>
      obtain ⟨v',hv,hf⟩ := h.iput
      rw [if_pos rfl, hv]
      exact ⟨v',none,name,rfl,hf,fun _ hr => absurd rfl hr⟩
  next rest name' hs =>
  obtain ⟨c,hc,hname,hrest,hend⟩ : ∃ c, components path = c::components rest ∧ shorten name' = c ∧
      0 ∉ rest ∧ (rest = [] ↔ components rest = []) := by
    rcases hspec with ⟨hs',-⟩ | ⟨_,_,c,hs',hc⟩
    · cases hs.symm.trans hs'
    · cases hs.symm.trans hs'
      exact ⟨c,hc⟩
  obtain ⟨v₁,hv₁,h₁,hip⟩ := h.ilock
  rw [hc, hv₁, Except.bind, hip]
  by_cases ht : (dinode sb s₀.store.disk i).type ≠ T_DIR
  · obtain ⟨v',hv,hf⟩ := h₁.iunlockput
    rw [if_pos ht, target_not_dir ht, hv]
    exact ⟨v',none,name',rfl,hf,fun _ hr => absurd rfl hr⟩
  rw [if_neg ht]
  rw [not_not] at ht
  by_cases hlast : parent = true ∧ rest = []
  · obtain ⟨rfl,rfl⟩ := hlast
    rw [if_pos ⟨rfl,rfl⟩, h₁.iunlock.1, hend.mp rfl, target_parent ht, ← hname]
    exact ⟨_,some ip,name',rfl,h₁.iunlock.2.finished,fun _ _ => rfl⟩
  rw [if_neg hlast, target_cons ht (by rwa [← hend]), ← hname, lookup_shorten]
  rcases h₁.dirlookup hin hroom hip ht name' with ⟨hl,hd⟩ | ⟨j,s',next,hl,hd,hg⟩
  · obtain ⟨v',hv,hf⟩ := h₁.iunlockput
    rw [hl, hd, Except.bind, hv]
    exact ⟨v',none,name',rfl,hf,fun _ hr => absurd rfl hr⟩
  · obtain ⟨v',hv,hnext⟩ := h₁.step hg (hin.named i h.known.1 ht name' j hl)
    obtain ⟨v'',r,name'',hrun,hf,hlastname⟩ :=
      ih rest.length (hn ▸ skipelem_shorter hs) rest name' hrest hnext rfl
    rw [hl, hd, Except.bind, hv]
    refine ⟨v'',r,name'',hrun,hf,fun hp hr => ?_⟩
    rw [List.getLast?_cons, hlastname hp hr]
    rfl

def Sys.start (s : Sys) (path : List UInt8) (cwd : Fin NINODE) : ℕ :=
  if path.head? = some slash then ROOTINO else (s.cache cwd).inum

theorem namex_runs {cwd : Fin NINODE} (hc : Coherent sb s) (hin : Intact sb s) (hroom : s.inUse.card+2 ≤ NINODE)
    (hcwd : 0 < (s.cache cwd).ref)
    (hknown : (s.cache cwd).inum < sb.ninodes ∧ (dinode sb s.store.disk (s.cache cwd).inum).type ≠ 0)
    (parent : Bool) (path name : List UInt8) (h0 : 0 ∉ path) :
    ∃ v r name', namex sb parent path name ⟨s,[]⟩ cwd = .ok (v, r, name') ∧
      Finished s v r (target sb s.store.disk parent (s.start path cwd) (components path)) ∧
      (parent = true → r ≠ none → (components path).getLast? = some (shorten name')) := by
  rw [namex, Sys.start]
  split
  · obtain ⟨s',l,hget,hg⟩ := iget_runs hc (hc.free_entry (i := 0) hroom fun _ => Nat.le_add_right ..) ROOTINO
    have hat : At sb s [] ⟨s',[]⟩ l ROOTINO :=
      ⟨rfl,hg.store,hg.coherent,hg.ref,hg.inum,hg.counts,⟨hin.root.1,hin.root.2.1⟩,hin.root.2.2⟩
    obtain ⟨v,r,name',hrun,hend⟩ := namexLoop_runs hin hroom parent path name h0 hat
    exact ⟨v,r,name',by rw [hget]; exact hrun,hend⟩
  · have hg := hc.idup hcwd
    have hat : At sb s [] ⟨s.idup cwd,[]⟩ cwd (s.cache cwd).inum :=
      ⟨rfl,hg.store,hg.coherent,hg.ref,hg.inum,hg.counts,hknown,.inr (refOf_pos.mpr ⟨cwd,hcwd,rfl⟩)⟩
    exact namexLoop_runs hin hroom parent path name h0 hat

/-- Both functions follow the components, and only the inode that they return is referenced
once more than before. -/
theorem namei_follows_components (sb : Super) (s : Sys) (cwd : Fin NINODE) (path name : List UInt8)
    (h0 : 0 ∉ path) (hc : Coherent sb s) (hin : Intact sb s) (hroom : s.inUse.card+2 ≤ NINODE)
    (hcwd : 0 < (s.cache cwd).ref)
    (hknown : (s.cache cwd).inum < sb.ninodes ∧ (dinode sb s.store.disk (s.cache cwd).inum).type ≠ 0) :
    (∃ v r name', namei sb path name ⟨s,[]⟩ cwd = .ok (v, r, name') ∧
      Finished s v r (resolve sb s.store.disk (s.start path cwd) (components path))) ∧
    ∃ v r name', nameiparent sb path name ⟨s,[]⟩ cwd = .ok (v, r, name') ∧
      Finished s v r (resolveParent sb s.store.disk (s.start path cwd) (components path)) ∧
      (r ≠ none → (components path).getLast? = some (shorten name')) := by
  constructor
  · obtain ⟨v,r,name',hrun,hend,-⟩ := namex_runs hc hin hroom hcwd hknown false path name h0
    exact ⟨v,r,name',hrun,hend⟩
  · obtain ⟨v,r,name',hrun,hend,hlast⟩ := namex_runs hc hin hroom hcwd hknown true path name h0
    exact ⟨v,r,name',hrun,hend,hlast rfl⟩

theorem ninode_pos : 0 < NINODE := by decide

def entry0 : Fin NINODE := ⟨0,ninode_pos⟩

/-- An empty root directory that is the current directory. -/
def rooted : Sys where
  store := ⟨blankDisk T_DIR,[]⟩
  cache k := if k = entry0 then ⟨ROOTINO,1,false,Sys.fresh 0⟩ else ⟨0,0,false,Sys.fresh 0⟩

theorem rooted_ref {k : Fin NINODE} : 0 < (rooted.cache k).ref ↔ k = entry0 := by
  rw [rooted]
  dsimp only
  split <;> simp [*]

theorem rooted_coherent : Coherent wide rooted where
  one := fun k l hk hl _ => by rw [rooted_ref.mp hk, rooted_ref.mp hl]
  loaded := by
    rintro k ⟨hk,hv⟩
    rw [rooted_ref.mp hk] at hv
    cases hv

theorem blank_dirs {i : ℕ} (hi : i < wide.ninodes) (ht : (dinode wide (blankDisk T_DIR) i).type = T_DIR) : i = 1 := by
  have h2 : i < 2 := hi
  interval_cases i
  · revert ht
    decide +kernel
  · rfl

theorem rooted_intact : Intact wide rooted where
  root := by
    refine ⟨by decide,?_,.inr (refOf_pos.mpr ⟨entry0,by decide,rfl⟩)⟩
    change (dinode wide (blankDisk T_DIR) 1).type ≠ 0
    rw [blank_dinode]
    decide
  filled := by
    intro i hi ht
    obtain rfl := blank_dirs hi ht
    exact blank_filled T_DIR
  whole := by
    intro i hi ht
    obtain rfl := blank_dirs hi ht
    change (dinode wide (blankDisk T_DIR) 1).nentries*direntSize = (dinode wide (blankDisk T_DIR) 1).size.toNat
    rw [blank_dinode]
    rfl
  named := by
    intro i hi ht name j hj
    obtain rfl := blank_dirs hi ht
    change lookup (blankDisk T_DIR) (dinode wide (blankDisk T_DIR) 1) name = some j at hj
    rw [blank_dinode] at hj
    cases hj

theorem rooted_room : rooted.inUse.card+2 ≤ NINODE := by
  have hone : rooted.inUse = {entry0} := by
    ext k
    simp [Sys.inUse, rooted_ref]
  rw [hone]
  decide

/-- The parent of `/x` is the root. -/
theorem namei_follows_slash_x :
    ∃ v k name', nameiparent wide [slash, 120] [] ⟨rooted,[]⟩ entry0 = .ok (v, some k, name') ∧
      (v.sys.cache k).inum = ROOTINO ∧ shorten name' = [120] ∧ v.sys.refOf ROOTINO = 2 := by
  have htype : (dinode wide rooted.store.disk ROOTINO).type = T_DIR := by
    change (dinode wide (blankDisk T_DIR) 1).type = T_DIR
    rw [blank_dinode]
    rfl
  have hcomp : components [slash, 120] = [[120]] := by decide
  obtain ⟨-,v,r,name',hrun,hend,hlast⟩ := namei_follows_components wide rooted entry0 [slash, 120] []
    (by decide) rooted_coherent rooted_intact rooted_room (by decide) ⟨by decide,by
      change (dinode wide rooted.store.disk ROOTINO).type ≠ 0
      rw [htype]
      decide⟩
  have hstart : rooted.start [slash, 120] entry0 = ROOTINO := rfl
  have ht : resolveParent wide rooted.store.disk ROOTINO [[120]] = some ROOTINO :=
    target_parent (c := [120]) htype
  rw [hstart, hcomp, ht] at hend
  rw [hcomp] at hlast
  obtain ⟨k,rfl,hk⟩ := Option.map_eq_some_iff.mp hend.found
  have hname := hlast (Option.some_ne_none k)
  refine ⟨v,k,name',hrun,hk,(Option.some_injective _ hname).symm,?_⟩
  have href := rooted_coherent.refOf_entry (rooted_ref.mpr rfl)
  rw [hend.counts ROOTINO, if_pos rfl]
  change rooted.refOf ROOTINO = 1 at href
  omega

/-- A disk on which every inode is an empty file with a link, but for the directories 1 and 2. -/
def crowdedSuper : Super := ⟨1000,64,2,10⟩

def crowdedDisk : Disk := fun b o =>
  if o%64 = 0 then (if b = 2 ∧ (o = 64 ∨ o = 128) then 1 else 2)
  else if o%64 = 6 then 1 else 0

/-- All entries of the cache are in use, the first of them by the current directory. -/
def crowded : Sys := ⟨⟨crowdedDisk,[]⟩,fun k => ⟨k.val+2,1,false,Sys.fresh 0⟩⟩

/-- With a full cache not even the root can be looked up. -/
theorem full_cache_stops :
    Coherent crowdedSuper crowded ∧
      (∀ k, (crowded.cache k).inum < crowdedSuper.ninodes ∧
        (dinode crowdedSuper crowdedDisk (crowded.cache k).inum).type = (if k = entry0 then T_DIR else T_FILE) ∧
        (dinode crowdedSuper crowdedDisk (crowded.cache k).inum).nlink = 1) ∧
      (dinode crowdedSuper crowdedDisk ROOTINO).type = T_DIR ∧
      namei crowdedSuper [slash] [] ⟨crowded,[]⟩ entry0 = .error (.halt (.panic "iget: no inodes")) := by
  refine ⟨⟨fun k l _ _ h => ?_,?_⟩,by decide +kernel,by decide +kernel,?_⟩
  · exact Fin.ext (Nat.add_right_cancel h)
  · rintro k ⟨-,hv⟩
    cases hv
  · have hget : crowded.iget ROOTINO = .error (.panic "iget: no inodes") := rfl
    have hslash : [slash].head? = some slash := rfl
    rw [namei, namex, if_pos hslash, hget]
    rfl

end Xv6.Fs
