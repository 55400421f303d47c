/-
# Engine.PorterCursor -- a stem does not depend on what the last call left (porter.hpp)

The object is reused from call to call and keeps its cursor `j`.  Two states that have the
same buffer and the same word may differ in `j` only (`Alike`): `ends` sets it whenever it
finds a suffix, and no step reads it before (`agree_ends`), so the steps take alike states
to alike states (`steps_agree`), and every call of `stem` gives the same word whatever the
calls before it were (`stem_forgets`).
-/
import HybridSearch.Engine.Analyzer

namespace HybridSearch.Engine

set_option autoImplicit false

namespace PorterStemmer

/-- The same buffer and the same word. -/
structure Alike (p p' : PorterStemmer) : Prop where
  b : p.b = p'.b
  k : p.k = p'.k

/-- The same end, up to the cursor. -/
inductive Agree : Except Fault PorterStemmer → Except Fault PorterStemmer → Prop
  | fault (e : Fault) : Agree (.error e) (.error e)
  | ok {p p' : PorterStemmer} (alike : Alike p p') : Agree (.ok p) (.ok p')

variable {p p' : PorterStemmer}

theorem Alike.refl (p : PorterStemmer) : Alike p p := ⟨rfl, rfl⟩

theorem Agree.refl (r : Except Fault PorterStemmer) : Agree r r := by
  cases r with
  | error e => exact .fault e
  | ok p => exact .ok (.refl p)

theorem Agree.bind {r r' : Except Fault PorterStemmer} {f g : PorterStemmer → Except Fault PorterStemmer}
    (agree : Agree r r') (next : ∀ p p', Alike p p' → Agree (f p) (g p')) : Agree (r >>= f) (r' >>= g) := by
  cases agree with
  | fault e => exact .fault e
  | ok alike => exact next _ _ alike

theorem agree_bind {α : Type} {x : Except Fault α} {f g : α → Except Fault PorterStemmer}
    (next : ∀ a, Agree (f a) (g a)) : Agree (x >>= f) (x >>= g) := by
  cases x with
  | error e => exact .fault e
  | ok a => exact next a

/-- **Looking for a suffix**: one that is found sets the cursor, and one that is missed leaves it. -/
theorem agree_ends (alike : Alike p p') (s : List Char) {f g : Bool × PorterStemmer → Except Fault PorterStemmer}
    (found : ∀ q, Agree (f (true, q)) (g (true, q))) (missed : Agree (f (false, p)) (g (false, p'))) :
    Agree (p.ends s >>= f) (p'.ends s >>= g) := by
  obtain ⟨b, j, k⟩ := p
  obtain ⟨b', j', k'⟩ := p'
  obtain ⟨rfl, rfl⟩ : b = b' ∧ k = k' := ⟨alike.b, alike.k⟩
  unfold ends
  dsimp only
  split_ifs with short
  · exact missed
  · cases endsAt b s (k - s.length + 1).toNat with
    | error e => exact .fault e
    | ok v =>
        cases v with
        | false => exact missed
        | true => exact found _

theorem plurals_agree (alike : Alike p p') : Agree p.plurals p'.plurals := by
  unfold plurals
  rw [alike.b, alike.k]
  refine agree_bind fun u => ?_
  split_ifs
  · exact .ok alike
  · refine agree_ends alike _ (fun q => .refl _) (agree_ends alike _ (fun q => .refl _) ?_)
    simp only [Bool.false_eq_true, if_false, alike.b, alike.k]
    refine agree_bind fun v => ?_
    split_ifs
    · exact .ok ⟨rfl, rfl⟩
    · exact .ok alike

theorem step1_agree (alike : Alike p p') : Agree p.step1 p'.step1 := by
  unfold step1
  refine (plurals_agree alike).bind fun p p' alike => ?_
  refine agree_ends alike _ (fun q => .refl _) (agree_ends alike _ (fun q => .refl _) ?_)
  exact agree_ends alike _ (fun q => .refl _) (.ok alike)

theorem step2_agree (alike : Alike p p') : Agree p.step2 p'.step2 := by
  unfold step2
  exact agree_ends alike _ (fun q => .refl _) (.ok alike)

theorem replace_agree (rules : List Rule) (alike : Alike p p') : Agree (replace rules p) (replace rules p') := by
  induction rules with
  | nil => exact .ok alike
  | cons rule rest ih =>
      unfold replace
      exact agree_ends alike _ (fun q => .refl _) ih

theorem step3_agree (alike : Alike p p') : Agree p.step3 p'.step3 := by
  unfold step3
  rw [alike.b, alike.k]
  split_ifs
  · exact .ok alike
  · exact agree_bind fun u => replace_agree _ alike

theorem step4_agree (alike : Alike p p') : Agree p.step4 p'.step4 := by
  unfold step4
  rw [alike.b, alike.k]
  exact agree_bind fun u => replace_agree _ alike

/-- Looking for one of several suffixes. -/
theorem agree_endsAny (alike : Alike p p') (suffixes : List (List Char × Bool))
    {f : Bool × PorterStemmer → Except Fault PorterStemmer}
    (missed : ∀ q q', Alike q q' → Agree (f (false, q)) (f (false, q'))) :
    Agree (p.endsAny suffixes >>= f) (p'.endsAny suffixes >>= f) := by
  induction suffixes with
  | nil => exact missed p p' alike
  | cons suffix rest ih =>
      obtain ⟨suffix, afterST⟩ := suffix
      unfold endsAny
      rw [bind_assoc, bind_assoc]
      exact agree_ends alike _ (fun q => .refl _) ih

theorem step5_agree (alike : Alike p p') : Agree p.step5 p'.step5 := by
  unfold step5
  rw [alike.b, alike.k]
  split_ifs
  · exact .ok alike
  · exact agree_bind fun u => agree_endsAny alike _ fun q q' alike => .ok alike

/-- The last step sets the cursor itself. -/
theorem step6_agree (alike : Alike p p') : Agree p.step6 p'.step6 := by
  have same : ({ p with j := p.k } : PorterStemmer) = { p' with j := p'.k } := by
    rw [alike.b, alike.k]
  unfold step6
  rw [same]
  exact .refl _

/-- **The steps take alike states to alike states.** -/
theorem steps_agree (alike : Alike p p') : Agree p.steps p'.steps := by
  unfold steps
  refine (step1_agree alike).bind fun p p' alike => ?_
  refine (step2_agree alike).bind fun p p' alike => ?_
  refine (step3_agree alike).bind fun p p' alike => ?_
  refine (step4_agree alike).bind fun p p' alike => ?_
  refine (step5_agree alike).bind fun p p' alike => ?_
  exact step6_agree alike

/-- **A stem does not depend on what the last call left.** -/
theorem stem_forgets (j j' : Int) (buf : List Nat) : stem j buf = stem j' buf := by
  unfold stem
  dsimp only
  split_ifs with lowest long
  · rfl
  · generalize left : steps _ = r
    generalize right : steps _ = r'
    have agree : Agree r r' := by
      rw [← left, ← right]
      exact steps_agree ⟨rfl, rfl⟩
    cases agree with
    | fault e => rfl
    | ok alike =>
        simp only [ok_bind, alike.b, alike.k]
  · rfl

end PorterStemmer

theorem stemAscii_forgets (j j' : Int) (t : Bytes) : stemAscii j t = stemAscii j' t := by
  unfold stemAscii
  rw [PorterStemmer.stem_forgets j j']

theorem stemUtf16_forgets (j j' : Int) (t : Bytes) : stemUtf16 j t = stemUtf16 j' t := by
  unfold stemUtf16
  dsimp only
  rw [PorterStemmer.stem_forgets j j']

/-- **A word has one stem**, whatever words were stemmed before it. -/
theorem stemInPlace_forgets (j j' : Int) (t : Bytes) : stemInPlace j t = stemInPlace j' t := by
  unfold stemInPlace
  rw [stemAscii_forgets j j', stemUtf16_forgets j j']

end HybridSearch.Engine
