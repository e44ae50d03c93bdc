import Xv6.Mem.Paging

/-!
# The page ledger

Every frame of the allocator's range is on the free list, belongs to a kernel
object, holds a level of a page directory, or is mapped by user entries. The
ledger compares the counters with the mappings of a list of directories. The
ghosts record what plain `fork` leaves behind: `u` marks a page mapped once and
never counted, `lost` a page that may have no owner, and `watch` says for which
entries, by their `PTE_U`, a write-protected page must be a counted one. With
`u` and `lost` empty the ledger is exact.
-/

set_option autoImplicit false

namespace Xv6.Ledger
open Xv6.Mmu Xv6.Kalloc Xv6.Paging Xv6.Tally

/-- The directory maps frame `f` at the user page `v`. -/
def MapsTo (d : PageDir) (v f : ℕ) : Prop :=
  has (d.leaf (v*PGSIZE)) PTE_P = true ∧ pteFrame (d.leaf (v*PGSIZE)) = f

instance (d : PageDir) (v f : ℕ) : Decidable (MapsTo d v f) :=
  inferInstanceAs (Decidable (_ ∧ _))

def mapCnt (d : PageDir) (f : ℕ) : ℕ := tally (Finset.range UPAGES) (fun v => MapsTo d v f)

def maps (ds : List PageDir) (f : ℕ) : ℕ := (ds.map (fun d => mapCnt d f)).sum

def tabs (ds : List PageDir) (f : ℕ) : ℕ := (ds.map (fun d => d.frames.count f)).sum

def kept (ph : Phys) (ds : List PageDir) (own : List ℕ) (f : ℕ) : ℕ :=
  ph.freelist.count f+own.count f+tabs ds f

def held (ph : Phys) (ds : List PageDir) (own : List ℕ) (f : ℕ) : ℕ :=
  kept ph ds own f+(if 0 < maps ds f then 1 else 0)

structure Ghost where
  u : ℕ → ℕ
  lost : ℕ → Prop
  watch : Bool → Prop

def Ghost.exact : Ghost := ⟨fun _ => 0, fun _ => False, fun _ => True⟩

/-- The kernel half of a directory is out of reach for user mode. -/
def Hidden (d : PageDir) : Prop :=
  ∀ va, KERNBASE ≤ va → va < 2^32 → has (d.leaf va) PTE_U = false

structure Books (g : Ghost) (ph : Phys) (ds : List PageDir) (own : List ℕ) : Prop where
  counted : ∀ f, ph.pgRefcount f+g.u f = maps ds f
  single : ∀ f, g.u f = 0 ∨ g.u f = 1 ∧ maps ds f ≤ 1 ∧ g.lost f ∧ kept ph ds own f = 0
  within : ∀ f, held ph ds own f ≤ if InRange f then 1 else 0
  complete : ∀ f, InRange f → g.lost f ∨ held ph ds own f = 1
  inj : ∀ d ∈ ds, ∀ f, mapCnt d f ≤ 1
  priv : ∀ d ∈ ds, ∀ v < UPAGES, has (d.leaf (v*PGSIZE)) PTE_P = true →
    has (d.leaf (v*PGSIZE)) PTE_W = true → maps ds (pteFrame (d.leaf (v*PGSIZE))) = 1
  ro : ∀ d ∈ ds, ∀ v < UPAGES, has (d.leaf (v*PGSIZE)) PTE_P = true →
    has (d.leaf (v*PGSIZE)) PTE_W = false → g.watch (has (d.leaf (v*PGSIZE)) PTE_U) →
    g.u (pteFrame (d.leaf (v*PGSIZE))) = 0
  hidden : ∀ d ∈ ds, Hidden d

@[simp] theorem maps_nil (f : ℕ) : maps [] f = 0 := rfl

@[simp] theorem maps_cons (d : PageDir) (ds : List PageDir) (f : ℕ) :
    maps (d::ds) f = mapCnt d f+maps ds f := by
  simp [maps]

@[simp] theorem tabs_nil (f : ℕ) : tabs [] f = 0 := rfl

@[simp] theorem tabs_cons (d : PageDir) (ds : List PageDir) (f : ℕ) :
    tabs (d::ds) f = d.frames.count f+tabs ds f := by
  simp [tabs]

theorem maps_perm {ds es : List PageDir} (h : ds.Perm es) (f : ℕ) : maps ds f = maps es f :=
  (h.map _).sum_eq

theorem tabs_perm {ds es : List PageDir} (h : ds.Perm es) (f : ℕ) : tabs ds f = tabs es f :=
  (h.map _).sum_eq

theorem mapCnt_le_maps {ds : List PageDir} {d : PageDir} (h : d ∈ ds) (f : ℕ) :
    mapCnt d f ≤ maps ds f :=
  List.single_le_sum (by simp) _ (List.mem_map.mpr ⟨d,h,rfl⟩)

theorem maps_le_length {ds : List PageDir} (f : ℕ) (h : ∀ d ∈ ds, mapCnt d f ≤ 1) :
    maps ds f ≤ ds.length := by
  induction ds with
  | nil => simp
  | cons d ds ih =>
    have hd := h d (by simp)
    have hr := ih (fun e he => h e (by simp [he]))
    simp only [maps_cons, List.length_cons]
    omega

theorem mapCnt_pos {d : PageDir} {v f : ℕ} (hv : v < UPAGES) (h : MapsTo d v f) :
    0 < mapCnt d f :=
  (tally_pos _ _).mpr ⟨v,Finset.mem_range.mpr hv,h⟩

theorem mapCnt_zero {d : PageDir} {f : ℕ} :
    mapCnt d f = 0 ↔ ∀ v < UPAGES, ¬ MapsTo d v f := by
  rw [mapCnt, tally_eq_zero]
  simp only [Finset.mem_range]

theorem mapCnt_two {d : PageDir} {v w f : ℕ} (hv : v < UPAGES) (hw : w < UPAGES)
    (hne : v ≠ w) (h : MapsTo d v f) (h' : MapsTo d w f) : 2 ≤ mapCnt d f := by
  by_contra hlt
  have hle : ((Finset.range UPAGES).filter (fun x => MapsTo d x f)).card ≤ 1 := by
    unfold mapCnt tally at hlt
    omega
  rw [Finset.card_le_one] at hle
  exact hne (hle v (by simp [hv, h]) w (by simp [hw, h']))

/-- Two directories that agree on the user half. -/
def Alike (e d : PageDir) : Prop :=
  (∀ v < UPAGES, e.leaf (v*PGSIZE) = d.leaf (v*PGSIZE)) ∧ (Hidden d → Hidden e)

/-- A directory without user mappings. -/
def Blank (e : PageDir) : Prop :=
  (∀ v < UPAGES, has (e.leaf (v*PGSIZE)) PTE_P = false) ∧ Hidden e

theorem alike_mapCnt {e d : PageDir} (h : Alike e d) (x : ℕ) : mapCnt e x = mapCnt d x := by
  apply tally_congr
  intro v hv
  simp only [MapsTo, h.1 v (Finset.mem_range.mp hv)]

theorem blank_mapCnt {e : PageDir} (h : Blank e) (x : ℕ) : mapCnt e x = 0 := by
  rw [mapCnt_zero]
  intro v hv hm
  rw [MapsTo, h.1 v hv] at hm
  exact Bool.false_ne_true hm.1

section
variable {g : Ghost} {ph : Phys} {d : PageDir} {rest ds : List PageDir} {own : List ℕ} {f : ℕ}

/-- The ledger only looks at counters, user entries and who keeps each frame. -/
theorem Books.transport {ph' : Phys} {ds' : List PageDir} {own' : List ℕ}
    (hb : Books g ph ds own) (href : ph'.pgRefcount = ph.pgRefcount)
    (hm : ∀ x, maps ds' x = maps ds x) (hk : ∀ x, kept ph' ds' own' x = kept ph ds own x)
    (hd : ∀ e ∈ ds', (∃ d ∈ ds, Alike e d) ∨ Blank e) : Books g ph' ds' own' := by
  refine ⟨?_,?_,?_,?_,?_,?_,?_,?_⟩
  · intro x; rw [hm, href]; exact hb.counted x
  · intro x; rw [hm, hk]; exact hb.single x
  · intro x; rw [held, hm, hk]; exact hb.within x
  · intro x; rw [held, hm, hk]; exact hb.complete x
  · intro e he x
    rcases hd e he with ⟨d,hdm,ha⟩ | hbl
    · rw [alike_mapCnt ha]; exact hb.inj d hdm x
    · rw [blank_mapCnt hbl]; omega
  · intro e he v hv hP
    rcases hd e he with ⟨d,hdm,ha⟩ | hbl
    · rw [ha.1 v hv] at hP ⊢
      rw [hm]
      exact hb.priv d hdm v hv hP
    · rw [hbl.1 v hv] at hP
      cases hP
  · intro e he v hv hP
    rcases hd e he with ⟨d,hdm,ha⟩ | hbl
    · rw [ha.1 v hv] at hP ⊢
      exact hb.ro d hdm v hv hP
    · rw [hbl.1 v hv] at hP
      cases hP
  · intro e he
    rcases hd e he with ⟨d,hdm,ha⟩ | hbl
    · exact ha.2 (hb.hidden d hdm)
    · exact hbl.2

theorem alike_refl (d : PageDir) : Alike d d := ⟨fun _ _ => rfl,id⟩

theorem Books.relist {ph' : Phys} {own' : List ℕ} (hb : Books g ph ds own)
    (href : ph'.pgRefcount = ph.pgRefcount)
    (hk : ∀ x, kept ph' ds own' x = kept ph ds own x) : Books g ph' ds own' :=
  hb.transport href (fun _ => rfl) hk (fun e he => Or.inl ⟨e,he,alike_refl e⟩)

theorem Books.rehead {ph' : Phys} {e : PageDir} {own' : List ℕ} (hb : Books g ph (d::rest) own)
    (href : ph'.pgRefcount = ph.pgRefcount) (ha : Alike e d)
    (hk : ∀ x, kept ph' (e::rest) own' x = kept ph (d::rest) own x) :
    Books g ph' (e::rest) own' := by
  refine hb.transport href (fun x => by rw [maps_cons, maps_cons, alike_mapCnt ha]) hk ?_
  intro c hc
  rcases List.mem_cons.mp hc with rfl | hc
  · exact Or.inl ⟨d,List.mem_cons_self,ha⟩
  · exact Or.inl ⟨c,List.mem_cons_of_mem d hc,alike_refl c⟩

theorem Books.perm {es : List PageDir} {own' : List ℕ} (hb : Books g ph ds own)
    (h : ds.Perm es) (ho : own.Perm own') : Books g ph es own' := by
  refine hb.transport rfl (fun x => (maps_perm h x).symm) (fun x => ?_)
    (fun e he => Or.inl ⟨e,h.mem_iff.mpr he,alike_refl e⟩)
  rw [kept, kept, ← tabs_perm h, ho.count_eq]

end

/-- What one entry contributes to the count of a frame. -/
def hit (p : Pte) (f : ℕ) : ℕ := if has p PTE_P = true ∧ pteFrame p = f then 1 else 0

theorem setPte_leaf_page (d : PageDir) (va v : ℕ) (p q : Pte) (hva : va < KERNBASE)
    (hv : v < UPAGES) (hw : d.walk va = some p) :
    (d.setPte va q).leaf (v*PGSIZE) = if v = va/PGSIZE then q else d.leaf (v*PGSIZE) := by
  have h1 : va < 2^32 := by unfold KERNBASE at hva; omega
  have h2 : v*PGSIZE < 2^32 := by rw [UPAGES_eq] at hv; unfold PGSIZE; omega
  rw [setPte_leaf d va _ q p h1 h2 hw]
  have : v*PGSIZE/PGSIZE = v := Nat.mul_div_cancel v (by decide)
  rw [this]

theorem leaf_page (d : PageDir) (va : ℕ) : d.leaf (va/PGSIZE*PGSIZE) = d.leaf va := by
  rw [PageDir.leaf, walk_page, PageDir.leaf]

theorem page_lt {va : ℕ} (h : va < KERNBASE) : va/PGSIZE < UPAGES := by
  rw [UPAGES_eq]
  unfold KERNBASE at h
  unfold PGSIZE
  omega

/-- Storing one entry moves the count of a frame by what the entry held and
by what it holds afterwards. -/
theorem setPte_mapCnt (d : PageDir) (va : ℕ) (p q : Pte) (hva : va < KERNBASE)
    (hw : d.walk va = some p) (f : ℕ) :
    mapCnt (d.setPte va q) f+hit p f = mapCnt d f+hit q f := by
  have hv := page_lt hva
  have hold : d.leaf (va/PGSIZE*PGSIZE) = p := by rw [leaf_page, leaf_of_walk hw]
  have hnew : (d.setPte va q).leaf (va/PGSIZE*PGSIZE) = q := by
    rw [setPte_leaf_page d va _ p q hva hv hw, if_pos rfl]
  have := tally_update (Finset.range UPAGES) (fun v => MapsTo d v f)
    (fun v => MapsTo (d.setPte va q) v f) (va/PGSIZE) (Finset.mem_range.mpr hv)
    (by
      intro v hm hne
      have hlt := Finset.mem_range.mp hm
      simp only [MapsTo]
      rw [setPte_leaf_page d va v p q hva hlt hw, if_neg hne])
  simp only [MapsTo, hold, hnew] at this
  exact this

theorem hit_self (p : Pte) (hp : has p PTE_P = true) : hit p (pteFrame p) = 1 := by
  simp [hit, hp]

theorem hit_of_frame {p q : Pte} (hP : has q PTE_P = has p PTE_P)
    (hf : pteFrame q = pteFrame p) (f : ℕ) : hit q f = hit p f := by
  simp only [hit, hP, hf]

theorem hit_absent {p : Pte} (hp : has p PTE_P = false) (f : ℕ) : hit p f = 0 := by
  simp [hit, hp]

section
variable {g : Ghost} {ph : Phys} {d : PageDir} {rest ds : List PageDir} {own : List ℕ} {f : ℕ}

/-- A frame that is on the free list or owned is mapped by nobody, counted zero
and in the allocator's range. -/
theorem Books.idle (hb : Books g ph ds own) (hf : 0 < kept ph ds own f) :
    InRange f ∧ kept ph ds own f = 1 ∧ maps ds f = 0 ∧ g.u f = 0 ∧ ph.pgRefcount f = 0 := by
  have hw := hb.within f
  have hc := hb.counted f
  have hr : InRange f := by
    by_contra hn
    rw [held, if_neg hn] at hw
    omega
  rw [held, if_pos hr] at hw
  have hm : maps ds f = 0 := by
    split at hw <;> omega
  rcases hb.single f with hu | hu
  · refine ⟨hr,?_,hm,hu,?_⟩ <;> omega
  · omega

theorem Books.mapped (hb : Books g ph ds own) (hf : 0 < maps ds f) :
    InRange f ∧ kept ph ds own f = 0 := by
  have hw := hb.within f
  rw [held, if_pos hf] at hw
  have hr : InRange f := by
    by_contra hn
    rw [if_neg hn] at hw
    omega
  rw [if_pos hr] at hw
  exact ⟨hr,by omega⟩

theorem Books.kalloc (hb : Books g ph ds own) {fs : List ℕ} (hl : ph.freelist = f::fs) :
    Books g { ph with freelist := fs } ds (f::own) := by
  have hk : ∀ x, kept { ph with freelist := fs } ds (f::own) x = kept ph ds own x := by
    intro x
    simp only [kept, hl, List.count_cons]
    omega
  exact hb.relist rfl hk

theorem Books.fill (hb : Books g ph ds own) (page : ℕ → UInt8) : Books g (ph.fill f page) ds own :=
  hb.relist rfl (fun _ => rfl)

theorem Books.kfree (hb : Books g ph ds (f::own)) :
    Kalloc.kfree ph f = .ok { ph.fill f (fun _ => 1) with freelist := f::ph.freelist } ∧
      Books g { ph.fill f (fun _ => 1) with freelist := f::ph.freelist } ds own := by
  have hk : ∀ x, kept { ph.fill f (fun _ => 1) with freelist := f::ph.freelist } ds own x =
      kept ph ds (f::own) x := by
    intro x
    simp only [kept, List.count_cons]
    omega
  have hr : InRange f := (hb.idle (f := f) (by simp [kept])).1
  exact ⟨by rw [Kalloc.kfree, if_pos hr],hb.relist rfl hk⟩

theorem Books.addTable {va : ℕ} (hb : Books g ph (d::rest) (f::own)) (hw : d.walk va = none) :
    Books g ph (d.addTable (PDX va) f::rest) own := by
  have ha : Alike (d.addTable (PDX va) f) d :=
    ⟨fun v _ => addTable_leaf d va _ f hw,
      fun h w h1 h2 => by rw [addTable_leaf d va w f hw]; exact h w h1 h2⟩
  refine hb.rehead rfl ha (fun x => ?_)
  simp only [kept, tabs_cons, (addTable_frames d va f hw).count_eq, List.count_cons]
  omega

theorem maps_two {e e' : PageDir} (he : e ∈ ds) (he' : e' ∈ ds) (hne : e ≠ e') (x : ℕ) :
    mapCnt e x+mapCnt e' x ≤ maps ds x := by
  obtain ⟨s,t,rfl⟩ := List.append_of_mem he
  have hm : e' ∈ s++t := by
    simp only [List.mem_append, List.mem_cons] at he' ⊢
    rcases he' with h | h | h
    · exact Or.inl h
    · exact absurd h.symm hne
    · exact Or.inr h
  have h1 := mapCnt_le_maps hm x
  have h2 := maps_perm (List.perm_middle : (s++e::t).Perm (e::(s++t))) x
  rw [maps_cons] at h2
  omega

theorem Books.two_places (hb : Books g ph ds own) {e e' : PageDir} {v w x : ℕ}
    (he : e ∈ ds) (he' : e' ∈ ds) (hv : v < UPAGES) (hw : w < UPAGES)
    (h : MapsTo e v x) (h' : MapsTo e' w x) (hne : e ≠ e' ∨ v ≠ w) : 2 ≤ maps ds x := by
  by_cases hee : e = e'
  · subst hee
    rcases hne with hne | hne
    · exact absurd rfl hne
    · have := mapCnt_two hv hw hne h h'
      have := hb.inj e he x
      omega
  · have := maps_two he he' hee x
    have := mapCnt_pos hv h
    have := mapCnt_pos hw h'
    omega

theorem Books.no_writer (hb : Books g ph ds own) {e : PageDir} {v x : ℕ}
    (he : e ∈ ds) (hv : v < UPAGES) (h : MapsTo e v x)
    (hr : has (e.leaf (v*PGSIZE)) PTE_W = false) {e' : PageDir} {w : ℕ} (he' : e' ∈ ds)
    (hw : w < UPAGES) (h' : MapsTo e' w x) : has (e'.leaf (w*PGSIZE)) PTE_W = false := by
  by_contra hW
  have hW' : has (e'.leaf (w*PGSIZE)) PTE_W = true := by simpa using hW
  have h1 := hb.priv e' he' w hw h'.1 hW'
  rw [h'.2] at h1
  have hne : e ≠ e' ∨ v ≠ w := by
    by_contra hc
    push Not at hc
    obtain ⟨rfl,rfl⟩ := hc
    rw [hr] at hW'
    cases hW'
  have := hb.two_places he he' hv hw h h' hne
  omega

/-- The rule for one store into an entry of a directory, with whatever the
function does to the counters, the lists and the ghosts at the same time. -/
theorem Books.rewrite {g' : Ghost} {ph' : Phys} {own' : List ℕ} {va : ℕ} {p q : Pte}
    (hb : Books g ph (d::rest) own) (hva : va < KERNBASE) (hw : d.walk va = some p)
    (hcount : ∀ x, ph'.pgRefcount x+g'.u x+hit p x = ph.pgRefcount x+g.u x+hit q x)
    (hkeep : ∀ x, g'.lost x ∧ held ph' (d.setPte va q::rest) own' x ≤ held ph (d::rest) own x ∨
      (g.lost x → g'.lost x) ∧ held ph' (d.setPte va q::rest) own' x = held ph (d::rest) own x)
    (hsingle : ∀ x, g'.u x = 0 ∨ g'.u x = 1 ∧ maps (d.setPte va q::rest) x ≤ 1 ∧ g'.lost x ∧
      kept ph' (d.setPte va q::rest) own' x = 0)
    (honce : ∀ x, hit q x ≤ hit p x ∨ mapCnt d x = 0)
    (hother : ∀ x, hit q x ≤ hit p x ∨ ∀ e ∈ d::rest, ∀ v < UPAGES, MapsTo e v x →
      has (e.leaf (v*PGSIZE)) PTE_W = false)
    (hW : has q PTE_P = true → has q PTE_W = true →
      maps (d.setPte va q::rest) (pteFrame q) = 1)
    (hu : ∀ x, 0 < maps (d::rest) x → g.u x = 0 → g'.u x = 0)
    (hro : has q PTE_P = true → has q PTE_W = false → g.watch (has q PTE_U) →
      g'.u (pteFrame q) = 0)
    (hwatch : g'.watch = g.watch) :
    Books g' ph' (d.setPte va q::rest) own' := by
  have hm := setPte_mapCnt d va p q hva hw
  have hpage := page_lt hva
  have hold : d.leaf (va/PGSIZE*PGSIZE) = p := by rw [leaf_page, leaf_of_walk hw]
  have hleaf : ∀ v < UPAGES, (d.setPte va q).leaf (v*PGSIZE) =
      if v = va/PGSIZE then q else d.leaf (v*PGSIZE) :=
    fun v hv => setPte_leaf_page d va v p q hva hv hw
  -- an entry other than the rewritten one keeps its privacy
  have hpriv : ∀ e ∈ d::rest, ∀ v < UPAGES, (e ≠ d ∨ v ≠ va/PGSIZE) →
      has (e.leaf (v*PGSIZE)) PTE_P = true → has (e.leaf (v*PGSIZE)) PTE_W = true →
      maps (d.setPte va q::rest) (pteFrame (e.leaf (v*PGSIZE))) = 1 := by
    intro e he v hv hne hP hWe
    have h1 := hb.priv e he v hv hP hWe
    have hp0 : hit p (pteFrame (e.leaf (v*PGSIZE))) = 0 := by
      by_contra hc
      have hpP : has p PTE_P = true ∧ pteFrame p = pteFrame (e.leaf (v*PGSIZE)) := by
        by_contra hn
        exact hc (if_neg hn)
      have := hb.two_places he (List.mem_cons_self : d ∈ d::rest) hv hpage ⟨hP,rfl⟩
        (by rw [MapsTo, hold]; exact hpP) hne
      omega
    have hq0 : hit q (pteFrame (e.leaf (v*PGSIZE))) = 0 := by
      rcases hother (pteFrame (e.leaf (v*PGSIZE))) with h | h
      · omega
      · have := h e he v hv ⟨hP,rfl⟩
        rw [hWe] at this
        cases this
    have := hm (pteFrame (e.leaf (v*PGSIZE)))
    rw [maps_cons] at h1 ⊢
    omega
  refine ⟨?_,hsingle,?_,?_,?_,?_,?_,?_⟩
  · intro x
    have h1 := hcount x
    have h2 := hb.counted x
    have h3 := hm x
    rw [maps_cons] at h2 ⊢
    push_cast at h2 ⊢
    omega
  · intro x
    have := hb.within x
    rcases hkeep x with h | h <;> omega
  · intro x hx
    rcases hkeep x with h | h
    · exact Or.inl h.1
    · rcases hb.complete x hx with hl | hl
      · exact Or.inl (h.1 hl)
      · exact Or.inr (by omega)
  · intro e he x
    rcases List.mem_cons.mp he with rfl | he
    · have h1 := hb.inj d (by simp) x
      have h2 := hm x
      rcases honce x with h | h
      · omega
      · have : hit q x ≤ 1 := by unfold hit; split <;> omega
        omega
    · exact hb.inj e (by simp [he]) x
  · intro e he v hv
    rcases List.mem_cons.mp he with rfl | her
    · rw [hleaf v hv]
      split
      · exact hW
      · next hne => exact hpriv d (by simp) v hv (Or.inr hne)
    · by_cases hed : e = d ∧ v = va/PGSIZE
      · obtain ⟨rfl,rfl⟩ := hed
        intro hP hWe
        exfalso
        have h1 := hb.priv e (by simp) (va/PGSIZE) hv hP hWe
        have h2 : 0 < mapCnt e (pteFrame (e.leaf (va/PGSIZE*PGSIZE))) :=
          mapCnt_pos hv ⟨hP,rfl⟩
        have h3 := mapCnt_le_maps her (pteFrame (e.leaf (va/PGSIZE*PGSIZE)))
        rw [maps_cons] at h1
        omega
      · exact hpriv e (by simp [her]) v hv (by tauto)
  · intro e he v hv
    rw [hwatch]
    rcases List.mem_cons.mp he with rfl | he
    · rw [hleaf v hv]
      split
      · exact hro
      · intro hP hWe hwt
        apply hu _ _ (hb.ro d (by simp) v hv hP hWe hwt)
        have := mapCnt_pos hv (show MapsTo d v _ from ⟨hP,rfl⟩)
        rw [maps_cons]
        omega
    · intro hP hWe hwt
      apply hu _ _ (hb.ro e (by simp [he]) v hv hP hWe hwt)
      have := mapCnt_pos hv (show MapsTo e v _ from ⟨hP,rfl⟩)
      have := mapCnt_le_maps he (pteFrame (e.leaf (v*PGSIZE)))
      rw [maps_cons]
      omega
  · intro e he
    rcases List.mem_cons.mp he with rfl | he
    · intro w h1 h2
      have hne : w/PGSIZE ≠ va/PGSIZE := by unfold KERNBASE PGSIZE at *; omega
      rw [PageDir.leaf, setPte_walk d va w q (by unfold KERNBASE at hva; omega) h2, if_neg hne]
      exact hb.hidden d (by simp) w h1 h2
    · exact hb.hidden e (by simp [he])

end

end Xv6.Ledger
