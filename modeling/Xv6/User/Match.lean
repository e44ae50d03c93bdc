import Mathlib.Computability.Language
import Mathlib.Tactic

/-!
# The matcher of grep

`match`, `matchhere` and `matchstar` of `grep.c`. A string is the list of its bytes before
the NUL, and a pointer into it is the rest of the list. The functions decide whether a
string has a factor in the language of the pattern, with the anchors at its ends.
-/

set_option autoImplicit false

namespace Xv6.Grep
open Computability

def star : UInt8 := 42
def dot : UInt8 := 46
def dollar : UInt8 := 36
def caret : UInt8 := 94

/-- The loop of `matchstar`; `here` is `matchhere` of the rest of the pattern. -/
def matchstar (here : List UInt8 → Bool) (c : UInt8) : List UInt8 → Bool
  | [] => here []
  | t::text =>
    if here (t::text) then true
    else if t = c ∨ c = dot then matchstar here c text
    else false

/-- The last test of `matchhere`: one byte of text, then the rest of the pattern. -/
def matchone (here : List UInt8 → Bool) (c : UInt8) : List UInt8 → Bool
  | [] => false
  | t::text => if c = dot ∨ c = t then here text else false

def matchhere : List UInt8 → List UInt8 → Bool
  | [], _ => true
  | [c], text => if c = dollar then text = [] else matchone (matchhere []) c text
  | c::d::re, text =>
    if d = star then matchstar (matchhere re) c text else matchone (matchhere (d::re)) c text

/-- The loop of `match`. -/
def matchAnywhere (re : List UInt8) : List UInt8 → Bool
  | [] => matchhere re []
  | t::text => if matchhere re (t::text) then true else matchAnywhere re text

def matchRe (re text : List UInt8) : Bool :=
  match re with
  | c::re => if c = caret then matchhere re text else matchAnywhere (c::re) text
  | [] => matchAnywhere [] text

/-! ### What patterns mean -/

/-- One byte of text for the byte `c` of the pattern. -/
def single (c : UInt8) : Language UInt8 := {w | ∃ b, w = [b] ∧ (c = dot ∨ c = b)}

/-- A pattern without anchors. -/
def lang : List UInt8 → Language UInt8
  | [] => 1
  | [c] => single c
  | c::d::re => if d = star then (single c)∗*lang re else single c*lang (d::re)

/-- The last byte is `$`. -/
def atEnd (re : List UInt8) : Prop := re.getLast? = some dollar

instance (re : List UInt8) : Decidable (atEnd re) := inferInstanceAs (Decidable (_ = _))

/-- The pattern without a `$` at its end. -/
def body (re : List UInt8) : List UInt8 := if atEnd re then re.dropLast else re

/-- Some beginning of the text is in the language, the whole text if the pattern ends in
`$`. -/
def Begins (re text : List UInt8) : Prop :=
  ∃ s v, text = s++v ∧ s ∈ lang (body re) ∧ (atEnd re → v = [])

variable {c d : UInt8} {re text : List UInt8}

theorem body_cons (h : re ≠ []) : body (c::re) = c::body re ∧ (atEnd (c::re) ↔ atEnd re) := by
  obtain ⟨d,re,rfl⟩ := List.exists_cons_of_ne_nil h
  have hend : atEnd (c::d::re) ↔ atEnd (d::re) := by rw [atEnd, atEnd, List.getLast?_cons_cons]
  refine ⟨?_,hend⟩
  rw [body, body]
  by_cases hd : atEnd (d::re)
  · rw [if_pos hd, if_pos (hend.mpr hd), List.dropLast_cons_cons]
  · rw [if_neg hd, if_neg (mt hend.mp hd)]

theorem lang_star (c : UInt8) (re : List UInt8) : lang (c::star::re) = (single c)∗*lang re := if_pos rfl

theorem lang_single (h : re.head? ≠ some star) : lang (c::re) = single c*lang re := by
  cases re with
  | nil => exact (mul_one (single c)).symm
  | cons d re => exact if_neg fun hd => h (by rw [hd]; rfl)

theorem mem_single_mul (L : Language UInt8) (s : List UInt8) :
    s ∈ single c*L ↔ ∃ b s', s = b::s' ∧ (c = dot ∨ c = b) ∧ s' ∈ L := by
  rw [Language.mem_mul]
  constructor
  · rintro ⟨-,⟨b,rfl,hb⟩,s',hs',rfl⟩
    exact ⟨b,s',rfl,hb,hs'⟩
  · rintro ⟨b,s',rfl,hb,hs'⟩
    exact ⟨[b],⟨b,rfl,hb⟩,s',hs',rfl⟩

theorem mem_single_kstar (s : List UInt8) : s ∈ (single c)∗ ↔ ∀ b ∈ s, c = dot ∨ c = b := by
  rw [Language.mem_kstar]
  constructor
  · rintro ⟨L,rfl,hL⟩ b hb
    obtain ⟨w,hw,hbw⟩ := List.mem_flatten.mp hb
    obtain ⟨b',rfl,hb'⟩ := hL w hw
    rw [List.mem_singleton.mp hbw]
    exact hb'
  · intro h
    refine ⟨s.map (fun b => [b]),?_,?_⟩
    · induction s with
      | nil => rfl
      | cons b s ih =>
        rw [List.map_cons, List.flatten_cons, ← ih fun b' hb' => h b' (List.mem_cons_of_mem _ hb')]
        rfl
    · intro w hw
      obtain ⟨b,hb,rfl⟩ := List.mem_map.mp hw
      exact ⟨b,rfl,h b hb⟩

theorem begins_nil (text : List UInt8) : Begins [] text :=
  ⟨[],text,rfl,rfl,fun h => absurd h (by simp [atEnd])⟩

theorem begins_dollar : Begins [dollar] text ↔ text = [] := by
  constructor
  · rintro ⟨s,v,rfl,hs,hv⟩
    have hs : s = [] := hs
    rw [hs, hv rfl]
    rfl
  · rintro rfl
    exact ⟨[],[],rfl,rfl,fun _ => rfl⟩

theorem begins_star : Begins (c::star::re) text ↔
    ∃ s v, text = s++v ∧ (∀ b ∈ s, c = dot ∨ c = b) ∧ Begins re v := by
  have hbody : lang (body (c::star::re)) = (single c)∗*lang (body re) ∧
      (atEnd (c::star::re) ↔ atEnd re) := by
    cases re with
    | nil =>
      have hno : ¬ atEnd [c,star] := fun h => absurd (Option.some.inj h) (by decide : star ≠ dollar)
      have hnil : ¬ atEnd [] := fun h => absurd h (by simp [atEnd])
      rw [body, if_neg hno, body, if_neg hnil, lang_star]
      exact ⟨rfl,iff_of_false hno hnil⟩
    | cons d re =>
      obtain ⟨h1,h2⟩ := @body_cons c (star::d::re) (by simp)
      obtain ⟨h3,h4⟩ := @body_cons star (d::re) (by simp)
      rw [h1, h3, lang_star]
      exact ⟨rfl,h2.trans h4⟩
  constructor
  · rintro ⟨s,v,rfl,hs,hv⟩
    rw [hbody.1, Language.mem_mul] at hs
    obtain ⟨s1,hs1,s2,hs2,rfl⟩ := hs
    exact ⟨s1,s2++v,List.append_assoc ..,(mem_single_kstar s1).mp hs1,s2,v,rfl,hs2,
      fun h => hv (hbody.2.mpr h)⟩
  · rintro ⟨s1,-,rfl,hs1,s2,v,rfl,hs2,hv⟩
    refine ⟨s1++s2,v,(List.append_assoc ..).symm,?_,fun h => hv (hbody.2.mp h)⟩
    rw [hbody.1, Language.mem_mul]
    exact ⟨s1,(mem_single_kstar s1).mpr hs1,s2,hs2,rfl⟩

theorem begins_single (hstar : re.head? ≠ some star) (hd : ¬ (c = dollar ∧ re = [])) :
    Begins (c::re) text ↔ ∃ b rest, text = b::rest ∧ (c = dot ∨ c = b) ∧ Begins re rest := by
  have hbody : lang (body (c::re)) = single c*lang (body re) ∧ (atEnd (c::re) ↔ atEnd re) := by
    cases re with
    | nil =>
      have hno : ¬ atEnd [c] := fun h => hd ⟨Option.some.inj h,rfl⟩
      have hnil : ¬ atEnd [] := fun h => absurd h (by simp [atEnd])
      rw [body, if_neg hno, body, if_neg hnil, lang_single hstar]
      exact ⟨rfl,iff_of_false hno hnil⟩
    | cons d re =>
      obtain ⟨h1,h2⟩ := @body_cons c (d::re) (by simp)
      refine ⟨?_,h2⟩
      rw [h1, lang_single]
      -- the byte behind `c` is the same unless it was the `$`
      rw [body]
      split
      · cases re with
        | nil => simp
        | cons e re => exact hstar
      · exact hstar
  constructor
  · rintro ⟨s,v,rfl,hs,hv⟩
    rw [hbody.1, mem_single_mul] at hs
    obtain ⟨b,s',rfl,hb,hs'⟩ := hs
    exact ⟨b,s'++v,rfl,hb,s',v,rfl,hs',fun h => hv (hbody.2.mpr h)⟩
  · rintro ⟨b,-,rfl,hb,s',v,rfl,hs',hv⟩
    refine ⟨b::s',v,rfl,?_,fun h => hv (hbody.2.mp h)⟩
    rw [hbody.1, mem_single_mul]
    exact ⟨b,s',rfl,hb,hs'⟩

/-! ### The functions -/

theorem matchstar_iff (here : List UInt8 → Bool) (c : UInt8) (text : List UInt8) :
    matchstar here c text = true ↔
      ∃ s v, text = s++v ∧ (∀ b ∈ s, c = dot ∨ c = b) ∧ here v = true := by
  induction text with
  | nil =>
    rw [matchstar]
    constructor
    · intro h
      exact ⟨[],[],rfl,by simp,h⟩
    · rintro ⟨s,v,hsv,-,hv⟩
      rw [(List.append_eq_nil_iff.mp hsv.symm).2] at hv
      exact hv
  | cons t text ih =>
    rw [matchstar]
    by_cases hnow : here (t::text) = true
    · rw [if_pos hnow]
      exact iff_of_true rfl ⟨[],t::text,rfl,by simp,hnow⟩
    rw [if_neg hnow]
    by_cases ht : t = c ∨ c = dot
    · rw [if_pos ht, ih]
      constructor
      · rintro ⟨s,v,rfl,hs,hv⟩
        refine ⟨t::s,v,rfl,fun b hb => ?_,hv⟩
        rcases List.mem_cons.mp hb with rfl | hb
        · exact ht.symm.imp_right Eq.symm
        · exact hs b hb
      · rintro ⟨s,v,hsv,hs,hv⟩
        cases s with
        | nil =>
          rw [List.nil_append] at hsv
          rw [hsv] at hnow
          exact absurd hv hnow
        | cons b s =>
          obtain ⟨rfl,rfl⟩ := List.cons.inj hsv
          exact ⟨s,v,rfl,fun b' hb' => hs b' (List.mem_cons_of_mem _ hb'),hv⟩
    · rw [if_neg ht]
      refine iff_of_false Bool.false_ne_true ?_
      rintro ⟨s,v,hsv,hs,hv⟩
      cases s with
      | nil =>
        rw [List.nil_append] at hsv
        rw [hsv] at hnow
        exact hnow hv
      | cons b s =>
        obtain ⟨rfl,rfl⟩ := List.cons.inj hsv
        exact ht ((hs t (by simp)).symm.imp_left Eq.symm)

theorem matchone_iff {here : List UInt8 → Bool} (hre : ∀ rest, here rest = true ↔ Begins re rest)
    (hstar : re.head? ≠ some star) (hd : ¬ (c = dollar ∧ re = [])) (text : List UInt8) :
    matchone here c text = true ↔ Begins (c::re) text := by
  rw [begins_single hstar hd]
  cases text with
  | nil => simp [matchone]
  | cons t text =>
    by_cases ht : c = dot ∨ c = t
    · simp [matchone, ht, hre]
    · simp [matchone, ht]

theorem matchhere_iff : ∀ re text, matchhere re text = true ↔ Begins re text
  | [], text => iff_of_true rfl (begins_nil text)
  | [c], text => by
    rw [matchhere]
    split
    · next hc =>
      rw [hc, begins_dollar]
      exact decide_eq_true_iff
    · next hc =>
      exact matchone_iff (matchhere_iff []) (by simp) (fun h => hc h.1) text
  | c::d::re, text => by
    rw [matchhere]
    split
    · next hd =>
      rw [hd, matchstar_iff, begins_star]
      simp only [matchhere_iff re]
    · next hd =>
      exact matchone_iff (matchhere_iff (d::re)) (fun h => hd (Option.some.inj h))
        (fun h => absurd h.2 (List.cons_ne_nil d re)) text

theorem matchAnywhere_iff (re text : List UInt8) :
    matchAnywhere re text = true ↔ ∃ u v, text = u++v ∧ Begins re v := by
  induction text with
  | nil =>
    rw [matchAnywhere, matchhere_iff]
    constructor
    · intro h
      exact ⟨[],[],rfl,h⟩
    · rintro ⟨u,v,huv,hv⟩
      rw [(List.append_eq_nil_iff.mp huv.symm).2] at hv
      exact hv
  | cons t text ih =>
    rw [matchAnywhere]
    by_cases hnow : matchhere re (t::text) = true
    · rw [if_pos hnow]
      exact iff_of_true rfl ⟨[],t::text,rfl,(matchhere_iff re _).mp hnow⟩
    · rw [if_neg hnow, ih]
      constructor
      · rintro ⟨u,v,rfl,hv⟩
        exact ⟨t::u,v,rfl,hv⟩
      · rintro ⟨u,v,huv,hv⟩
        cases u with
        | nil =>
          rw [List.nil_append] at huv
          rw [huv, matchhere_iff] at hnow
          exact absurd hv hnow
        | cons b u =>
          obtain ⟨rfl,rfl⟩ := List.cons.inj huv
          exact ⟨u,v,rfl,hv⟩

/-- The pattern behind a leading `^`. -/
def unanchored (re : List UInt8) : List UInt8 := if re.head? = some caret then re.tail else re

/-- `match` finds a factor of the text in the language of the pattern, at the beginning for a
leading `^` and at the end for a final `$`. -/
theorem match_decides (re text : List UInt8) : matchRe re text = true ↔
    ∃ u s v, text = u++s++v ∧ s ∈ lang (body (unanchored re)) ∧ (re.head? = some caret → u = []) ∧
      (atEnd (unanchored re) → v = []) := by
  have hfree : re.head? ≠ some caret → (matchAnywhere re text = true ↔ ∃ u s v, text = u++s++v ∧
      s ∈ lang (body (unanchored re)) ∧ (re.head? = some caret → u = []) ∧
      (atEnd (unanchored re) → v = [])) := by
    intro hre
    rw [matchAnywhere_iff, unanchored, if_neg hre]
    constructor
    · rintro ⟨u,-,rfl,s,v,rfl,hs,hv⟩
      exact ⟨u,s,v,(List.append_assoc ..).symm,hs,fun h => absurd h hre,hv⟩
    · rintro ⟨u,s,v,rfl,hs,-,hv⟩
      exact ⟨u,s++v,List.append_assoc ..,s,v,rfl,hs,hv⟩
  cases re with
  | nil => exact hfree (by simp)
  | cons c re =>
    rw [matchRe]
    split
    · next hc =>
      have hhead : (c::re).head? = some caret := by rw [hc]; rfl
      rw [matchhere_iff, unanchored, if_pos hhead, List.tail_cons]
      constructor
      · rintro ⟨s,v,rfl,hs,hv⟩
        exact ⟨[],s,v,rfl,hs,fun _ => rfl,hv⟩
      · rintro ⟨u,s,v,rfl,hs,hu,hv⟩
        rw [hu hhead]
        exact ⟨s,v,rfl,hs,hv⟩
    · next hc => exact hfree fun h => hc (Option.some.inj h)

end Xv6.Grep
