/-
# Engine.TokenizerTables -- the tables the tokenizer is built with (src/lexical/tokenizer.cc)

The property table (`unicode_data.inc`) is data: ranges of code points with their
property masks, in order.  `StandardTokenizer.construct` is the constructor: the
alphabet of the distinct masks, the two-stage table from code points to classes,
and the automaton of the grammar.

The two-stage table gives every code point the class of its mask
(`built_of_construct`).  The classes of a token are those that predicates of the
grammar take (`Node.mem_lang`), so every code point of a token has a property.  The
constructor fails only at a limit (`construct_ends`).
-/
import HybridSearch.Engine.GrammarTables

namespace HybridSearch.Engine

open HybridSearch.Theory

set_option autoImplicit false

/-! ## The property table (src/lexical/unicode_props.cc) -/

structure PropRange where
  lo : Nat
  hi : Nat
  mask : Nat
  deriving DecidableEq, Repr

/-- `uni::prop_mask`: the last range that begins at or before the code point. -/
def propMask (ranges : List PropRange) (cp : Nat) : Nat :=
  match (ranges.takeWhile fun r => decide (r.lo ≤ cp)).getLast? with
  | none => 0
  | some r => if cp ≤ r.hi then r.mask else 0

/-- `uni::all_masks`. -/
def allMasks (ranges : List PropRange) (cap : Nat) : List Nat :=
  ranges.foldl (fun out r =>
    if !out.contains r.mask && decide (out.length < cap) then out ++ [r.mask] else out) [0]

namespace StandardTokenizer

/-! ## The constructor -/

/-- `class_of.at`. -/
def classOf (masks : List Nat) (m : Nat) : Except Fault Nat :=
  match masks.idxOf? m with
  | some i => .ok i
  | none => .error (.thrown "unordered_map::at")

/-- The classes of the 128 code points of a block. -/
def blockAt (ranges : List PropRange) (masks : List Nat) (bi : Nat) : Except Fault (List Nat) :=
  (List.range 128).mapM fun j => classOf masks (propMask ranges (bi * 128 + j))

/-- The body of the loop over the blocks; `stage2` is kept block by block. -/
def stageStep (ranges : List PropRange) (masks : List Nat)
    (acc : List Nat × List (List Nat)) (bi : Nat) : Except Fault (List Nat × List (List Nat)) := do
  let block ← blockAt ranges masks bi
  match acc.2.idxOf? block with
  | some id => return (acc.1 ++ [id], acc.2)
  | none => return (acc.1 ++ [acc.2.length], acc.2 ++ [block])

/-- The constructor. -/
def construct (ranges : List PropRange) : Except Fault StandardTokenizer :=
  let masks := allMasks ranges 256
  if 250 ≤ masks.length then .error (.thrown "tokenizer: too many property classes")
  else do
    let kBlocks := 0x110000 / 128
    let (stage1, blocks) ← (List.range kBlocks).foldlM (stageStep ranges masks) ([], [])
    let asciiCls ← (List.range 128).mapM fun c => classOf masks (propMask ranges c)
    let tables ← subsetConstruction buildGrammar masks
    if tables.accept.getD 0 0 ≠ 0 then
      .error (.thrown "tokenizer grammar accepts the empty string")
    else
      return { nclasses := masks.length, asciiCls, stage1, stage2 := blocks.flatten
               trans := tables.trans, accept := tables.accept }

/-! ## The two stages -/

variable {ranges : List PropRange} {masks : List Nat}

theorem mapM_forall₂ {ε α β : Type} {f : α → Except ε β} {xs : List α} {ys : List β}
    (run : xs.mapM f = .ok ys) : List.Forall₂ (fun x y => f x = .ok y) xs ys := by
  induction xs generalizing ys with
  | nil =>
      rw [List.mapM_nil] at run
      cases run
      exact .nil
  | cons x xs ih =>
      rw [List.mapM_cons] at run
      cases head : f x with
      | error e =>
          rw [head] at run
          exact nomatch run
      | ok y =>
          rw [head] at run
          cases tail : xs.mapM f with
          | error e =>
              rw [tail] at run
              exact nomatch run
          | ok rest =>
              rw [tail] at run
              cases run
              exact .cons head (ih tail)

/-- The classes of a run of code points, one by one. -/
theorem mapM_range {f : Nat → Except Fault Nat} {n : Nat} {ys : List Nat}
    (run : (List.range n).mapM f = .ok ys) :
    ys.length = n ∧ ∀ j < n, ∃ y, ys[j]? = some y ∧ f j = .ok y := by
  have pairs := mapM_forall₂ run
  have length := pairs.length_eq
  rw [List.length_range] at length
  refine ⟨length.symm, fun j inside => ?_⟩
  have inside' : j < ys.length := by omega
  refine ⟨ys[j], List.getElem?_eq_getElem inside', ?_⟩
  have here := List.forall₂_iff_get.mp pairs |>.2 j (by simpa using inside) inside'
  simpa using here

theorem classOf_eq_ok {m i : Nat} (run : classOf masks m = .ok i) : masks[i]? = some m := by
  unfold classOf at run
  split at run
  · rename_i found
    cases run
    obtain ⟨inside, is, -⟩ := List.idxOf?_eq_some_iff.mp found
    rw [List.getElem?_eq_getElem inside, is]
  · exact nomatch run

/-- A place in equal blocks laid end to end. -/
theorem getElem?_flatten_blocks {blocks : List (List Nat)} {n i j : Nat} {block : List Nat}
    (size : ∀ b ∈ blocks, b.length = n) (found : blocks[i]? = some block) (inside : j < n) :
    blocks.flatten[i * n + j]? = block[j]? := by
  induction blocks generalizing i with
  | nil => exact nomatch found
  | cons first rest ih =>
      obtain ⟨here, size⟩ := List.forall_mem_cons.mp size
      cases i with
      | zero =>
          cases found
          rw [List.flatten_cons, Nat.zero_mul, Nat.zero_add, List.getElem?_append_left (by omega)]
      | succ i =>
          rw [List.flatten_cons, List.getElem?_append_right (by rw [here, Nat.succ_mul]; omega)]
          rw [← ih size found]
          congr 1
          rw [here, Nat.succ_mul]
          omega

/-- **The stages after some blocks**: every block so far is the one its entry names. -/
structure Staged (ranges : List PropRange) (masks : List Nat) (n : Nat)
    (acc : List Nat × List (List Nat)) : Prop where
  size : ∀ block ∈ acc.2, block.length = 128
  length : acc.1.length = n
  entries : ∀ bi < n, ∃ id block, acc.1[bi]? = some id ∧ acc.2[id]? = some block ∧
    blockAt ranges masks bi = .ok block

theorem Staged.step {n : Nat} {acc acc' : List Nat × List (List Nat)}
    (staged : Staged ranges masks n acc) (run : stageStep ranges masks acc n = .ok acc') :
    Staged ranges masks (n + 1) acc' := by
  unfold stageStep at run
  cases made : blockAt ranges masks n with
  | error e =>
      rw [made] at run
      exact nomatch run
  | ok block =>
      rw [made] at run
      have blockSize := (mapM_range made).1
      simp only [bind, Except.bind, pure, Except.pure] at run
      split at run
      · rename_i id old
        cases run
        refine ⟨staged.size, by simp [staged.length], fun bi less => ?_⟩
        rcases Nat.lt_succ_iff_lt_or_eq.mp less with before | rfl
        · obtain ⟨id', block', entry_eq, rest⟩ := staged.entries bi before
          refine ⟨id', block', ?_, rest⟩
          rw [List.getElem?_append_left (by rw [staged.length]; exact before), entry_eq]
        · obtain ⟨inside, is, -⟩ := List.idxOf?_eq_some_iff.mp old
          refine ⟨id, block, ?_, by rw [List.getElem?_eq_getElem inside, is], made⟩
          rw [← staged.length, List.getElem?_concat_length]
      · cases run
        refine ⟨?_, by simp [staged.length], fun bi less => ?_⟩
        · exact List.forall_mem_append.mpr ⟨staged.size, List.forall_mem_singleton.mpr blockSize⟩
        · rcases Nat.lt_succ_iff_lt_or_eq.mp less with before | rfl
          · obtain ⟨id', block', entry_eq, found, rest⟩ := staged.entries bi before
            refine ⟨id', block', ?_, ?_, rest⟩
            · rw [List.getElem?_append_left (by rw [staged.length]; exact before), entry_eq]
            · rw [List.getElem?_append_left (List.getElem?_eq_some_iff.mp found).1, found]
          · refine ⟨acc.2.length, block, ?_, List.getElem?_concat_length, made⟩
            rw [← staged.length, List.getElem?_concat_length]

theorem staged_foldlM {n : Nat} {acc : List Nat × List (List Nat)}
    (run : (List.range n).foldlM (stageStep ranges masks) ([], []) = .ok acc) :
    Staged ranges masks n acc := by
  induction n generalizing acc with
  | zero =>
      cases run
      exact ⟨List.forall_mem_nil _, rfl, fun bi less => absurd less (Nat.not_lt_zero bi)⟩
  | succ n ih =>
      rw [List.range_succ, List.foldlM_append] at run
      cases before : (List.range n).foldlM (stageStep ranges masks) ([], []) with
      | error e =>
          rw [before] at run
          exact nomatch run
      | ok acc' =>
          rw [before] at run
          refine (ih before).step ?_
          cases here : stageStep ranges masks acc' n with
          | error e =>
              simp only [bind, Except.bind, List.foldlM_cons, here] at run
              exact nomatch run
          | ok acc'' =>
              simp only [bind, Except.bind, List.foldlM_cons, List.foldlM_nil, here, pure,
                Except.pure] at run
              exact run

/-- What the constructor leaves. -/
structure Built (ranges : List PropRange) (t : StandardTokenizer) : Prop where
  tables : ∃ tables, subsetConstruction buildGrammar (allMasks ranges 256) = .ok tables ∧
    t.trans = tables.trans ∧ t.accept = tables.accept ∧ tables.accept.getD 0 0 = 0
  classes : t.nclasses = (allMasks ranges 256).length
  cls_spec : ∀ cp < 0x110000, (allMasks ranges 256)[t.cls cp]? = some (propMask ranges cp)

/-- **The constructor**: the automaton of the grammar over the masks, and tables that give
every code point the class of its mask. -/
theorem built_of_construct {t : StandardTokenizer} (run : construct ranges = .ok t) :
    Built ranges t := by
  unfold construct at run
  dsimp only at run
  split at run
  · exact nomatch run
  · cases staging : (List.range (0x110000 / 128)).foldlM
        (stageStep ranges (allMasks ranges 256)) ([], []) with
    | error e =>
        rw [staging] at run
        exact nomatch run
    | ok stages =>
        obtain ⟨stage1, blocks⟩ := stages
        rw [staging] at run
        have staged := staged_foldlM staging
        simp only [bind, Except.bind] at run
        split at run
        · exact nomatch run
        · rename_i asciiCls ascii
          split at run
          · exact nomatch run
          · rename_i tables constructed
            split at run
            · exact nomatch run
            · rename_i plain
              cases run
              refine ⟨⟨tables, constructed, rfl, rfl, not_not.mp plain⟩, rfl, fun cp small => ?_⟩
              unfold cls
              dsimp only
              split
              · rename_i isAscii
                obtain ⟨i, entry_eq, is⟩ := (mapM_range ascii).2 cp isAscii
                rw [List.getD_eq_getElem?_getD, entry_eq, Option.getD_some]
                exact classOf_eq_ok is
              · have digits : cp = cp / 128 * 128 + cp % 128 := by omega
                obtain ⟨id, block, entry_eq, found, made⟩ := staged.entries (cp / 128) (by omega)
                obtain ⟨i, inBlock, is⟩ := (mapM_range made).2 (cp % 128) (by omega)
                rw [← digits] at is
                rw [Nat.shiftRight_eq_div_pow, Nat.and_two_pow_sub_one_eq_mod _ 7,
                  List.getD_eq_getElem?_getD, List.getD_eq_getElem?_getD]
                change (allMasks ranges 256)[(blocks.flatten[(stage1[cp / 128]?).getD 0 * 128 +
                  cp % 128]?).getD 0]? = _
                rw [entry_eq, Option.getD_some, getElem?_flatten_blocks staged.size found (by omega),
                  inBlock, Option.getD_some]
                exact classOf_eq_ok is

end StandardTokenizer

/-! ## The grammar's predicates -/

namespace Node

mutual

/-- The predicates of a tree. -/
def preds : Node → List Pred
  | .sym pred => [pred]
  | .cat first rest => first.preds ++ predsAll rest
  | .alt kids => predsAll kids
  | .star kid => kid.preds
  | .plus kid => kid.preds
  | .opt kid => kid.preds

def predsAll : List Node → List Pred
  | [] => []
  | kid :: rest => kid.preds ++ predsAll rest

end

mutual

/-- Whether the empty word is in the language. -/
def nullable : Node → Bool
  | .sym _ => false
  | .cat first rest => first.nullable && nullableCat rest
  | .alt kids => nullableAlt kids
  | .star _ => true
  | .plus kid => kid.nullable
  | .opt _ => true

def nullableCat : List Node → Bool
  | [] => true
  | kid :: rest => kid.nullable && nullableCat rest

def nullableAlt : List Node → Bool
  | [] => false
  | kid :: rest => kid.nullable || nullableAlt rest

end

variable {masks : List Nat}

/-- A class that a predicate of the list takes. -/
def Named (masks : List Nat) (preds : List Pred) (c : Nat) : Prop :=
  ∃ pred ∈ preds, ∃ m, masks[c]? = some m ∧ pred.matches m = true

theorem Named.mono {preds preds' : List Pred} {c : Nat} (sub : preds ⊆ preds')
    (named : Named masks preds c) : Named masks preds' c := by
  obtain ⟨pred, mem, rest⟩ := named
  exact ⟨pred, sub mem, rest⟩

theorem mem_kstar_named {L : Language Nat} {preds : List Pred}
    (each : ∀ w ∈ L, ∀ c ∈ w, Named masks preds c) {w : List Nat} (mem : w ∈ KStar.kstar L) :
    ∀ c ∈ w, Named masks preds c := by
  obtain ⟨words, rfl, all⟩ := Language.mem_kstar.mp mem
  intro c held
  obtain ⟨v, inWords, inside⟩ := List.mem_flatten.mp held
  exact each v (all v inWords) c inside

mutual

/-- **Every class of a word of the language** is one that a predicate of the tree takes. -/
theorem mem_lang : ∀ (node : Node), ∀ w ∈ node.lang masks, ∀ c ∈ w, Named masks node.preds c
  | .sym pred, w, mem, c, held => by
      obtain ⟨c', m, rfl, mask, holds⟩ := mem
      obtain rfl := List.mem_singleton.mp held
      exact ⟨pred, List.mem_singleton_self pred, m, mask, holds⟩
  | .cat first rest, w, mem, c, held => by
      obtain ⟨v, inFirst, u, inRest, rfl⟩ := mem
      rcases List.mem_append.mp held with held | held
      · exact (mem_lang first v inFirst c held).mono (List.subset_append_left _ _)
      · exact (mem_langCat rest u inRest c held).mono (List.subset_append_right _ _)
  | .alt kids, w, mem, c, held => mem_langAlt kids w mem c held
  | .star kid, w, mem, c, held => mem_kstar_named (mem_lang kid) mem c held
  | .plus kid, w, mem, c, held => by
      obtain ⟨v, inKid, u, inStar, rfl⟩ := mem
      rcases List.mem_append.mp held with held | held
      · exact mem_lang kid v inKid c held
      · exact mem_kstar_named (mem_lang kid) inStar c held
  | .opt kid, w, mem, c, held => by
      rcases mem with empty | inKid
      · rw [(Language.mem_one w).mp empty] at held
        exact absurd held List.not_mem_nil
      · exact mem_lang kid w inKid c held

theorem mem_langCat : ∀ (rest : List Node), ∀ w ∈ langCat masks rest, ∀ c ∈ w,
    Named masks (predsAll rest) c
  | [], w, mem, c, held => by
      rw [(Language.mem_one w).mp mem] at held
      exact absurd held List.not_mem_nil
  | kid :: rest, w, mem, c, held => by
      obtain ⟨v, inKid, u, inRest, rfl⟩ := mem
      rcases List.mem_append.mp held with held | held
      · exact (mem_lang kid v inKid c held).mono (List.subset_append_left _ _)
      · exact (mem_langCat rest u inRest c held).mono (List.subset_append_right _ _)

theorem mem_langAlt : ∀ (kids : List Node), ∀ w ∈ langAlt masks kids, ∀ c ∈ w,
    Named masks (predsAll kids) c
  | [], w, mem, _, _ => absurd mem (Language.notMem_zero w)
  | kid :: rest, w, mem, c, held => by
      rcases mem with inKid | inRest
      · exact (mem_lang kid w inKid c held).mono (List.subset_append_left _ _)
      · exact (mem_langAlt rest w inRest c held).mono (List.subset_append_right _ _)

end

/-- The empty word is a product of words only where both are empty. -/
theorem nil_mem_mul (L M : Language Nat) : [] ∈ L * M ↔ [] ∈ L ∧ [] ∈ M := by
  rw [Language.mem_mul]
  constructor
  · rintro ⟨v, inFirst, u, inRest, empty⟩
    obtain ⟨rfl, rfl⟩ := List.append_eq_nil_iff.mp empty
    exact ⟨inFirst, inRest⟩
  · rintro ⟨inFirst, inRest⟩
    exact ⟨[], inFirst, [], inRest, rfl⟩

mutual

/-- **The empty word** is in the language of a nullable tree, and of no other. -/
theorem nil_mem_lang : ∀ node : Node, [] ∈ node.lang masks ↔ node.nullable = true
  | .sym pred => by
      rw [nullable]
      constructor
      · rintro ⟨c, m, empty, -⟩
        cases empty
      · intro no
        cases no
  | .cat first rest => by
      rw [nullable, Bool.and_eq_true, ← nil_mem_lang first, ← nil_mem_langCat rest]
      exact nil_mem_mul _ _
  | .alt kids => nil_mem_langAlt kids
  | .star kid => iff_of_true (Language.nil_mem_kstar _) rfl
  | .plus kid => by
      rw [nullable, ← nil_mem_lang kid]
      exact (nil_mem_mul _ _).trans (and_iff_left (Language.nil_mem_kstar _))
  | .opt kid => iff_of_true (.inl Language.nil_mem_one) rfl

theorem nil_mem_langCat : ∀ rest : List Node, [] ∈ langCat masks rest ↔ nullableCat rest = true
  | [] => iff_of_true Language.nil_mem_one rfl
  | kid :: rest => by
      rw [nullableCat, Bool.and_eq_true, ← nil_mem_lang kid, ← nil_mem_langCat rest]
      exact nil_mem_mul _ _

theorem nil_mem_langAlt : ∀ kids : List Node, [] ∈ langAlt masks kids ↔ nullableAlt kids = true
  | [] => iff_of_false (Language.notMem_zero []) Bool.false_ne_true
  | kid :: rest => by
      rw [nullableAlt, Bool.or_eq_true, ← nil_mem_lang kid, ← nil_mem_langAlt rest, langAlt,
        Language.mem_add]

end

/-- The token grammar does not match the empty string, and no predicate of it takes a code
point without a property. -/
theorem buildGrammar_plain : buildGrammar.nullable = false ∧
    (buildGrammar.preds.all fun pred => !pred.matches 0) = true := by decide

end Node

namespace StandardTokenizer

variable {ranges : List PropRange}

/-- **Every code point of a token has a property.** -/
theorem Built.property_of_accepts {t : StandardTokenizer} (built : Built ranges t)
    {word : List (Nat × Nat)} (valid : ∀ cp ∈ word, cp.1 < 0x110000)
    (accepts : t.scanner.Accepts word) : ∀ cp ∈ word, propMask ranges cp.1 ≠ 0 := by
  obtain ⟨tables, is, trans, accept, -⟩ := built.tables
  have known : ∀ cp ∈ word, t.cls cp.1 < (allMasks ranges 256).length := by
    intro cp held
    exact (List.getElem?_eq_some_iff.mp (built.cls_spec cp.1 (valid cp held))).1
  have inLang := (scanner_accepts_iff is trans accept built.classes known).mp accepts
  intro cp held none
  obtain ⟨pred, mem, m, mask, holds⟩ :=
    Node.mem_lang buildGrammar _ inLang _ (List.mem_map_of_mem held)
  rw [built.cls_spec cp.1 (valid cp held), none, Option.some.injEq] at mask
  have refuses := List.all_eq_true.mp Node.buildGrammar_plain.2 pred mem
  rw [mask, holds] at refuses
  cases refuses

/-! ## The constructor ends -/

theorem mapM_ok {ε α β : Type} {f : α → Except ε β} {xs : List α}
    (each : ∀ x ∈ xs, ∃ y, f x = .ok y) : ∃ ys, xs.mapM f = .ok ys := by
  induction xs with
  | nil => exact ⟨[], by rw [List.mapM_nil]; rfl⟩
  | cons x xs ih =>
      obtain ⟨⟨y, head⟩, each⟩ := List.forall_mem_cons.mp each
      obtain ⟨ys, tail⟩ := ih each
      refine ⟨y :: ys, ?_⟩
      rw [List.mapM_cons, head, tail]
      rfl

/-- The body of the loop of `all_masks`. -/
def addMask (cap : Nat) (out : List Nat) (r : PropRange) : List Nat :=
  if !out.contains r.mask && decide (out.length < cap) then out ++ [r.mask] else out

theorem prefix_addMask (cap : Nat) (out : List Nat) (r : PropRange) : out <+: addMask cap out r := by
  unfold addMask
  split
  · exact List.prefix_append _ _
  · exact List.prefix_rfl

theorem prefix_foldl_addMask (cap : Nat) (rs : List PropRange) (out : List Nat) :
    out <+: rs.foldl (addMask cap) out := by
  induction rs generalizing out with
  | nil => exact List.prefix_rfl
  | cons r rs ih => exact (prefix_addMask cap out r).trans (ih _)

/-- A mask is collected while there is room. -/
theorem mem_addMask {cap : Nat} {out : List Nat} (room : out.length < cap) (r : PropRange) :
    r.mask ∈ addMask cap out r := by
  unfold addMask
  split
  · exact List.mem_concat_self
  · rename_i old
    simpa [room] using old

theorem mem_foldl_addMask {cap : Nat} {rs : List PropRange} {out : List Nat}
    (room : (rs.foldl (addMask cap) out).length < cap) :
    ∀ r ∈ rs, r.mask ∈ rs.foldl (addMask cap) out := by
  induction rs generalizing out with
  | nil => exact fun r held => absurd held List.not_mem_nil
  | cons first rs ih =>
      intro r held
      have grown := prefix_foldl_addMask cap (first :: rs) out
      rcases List.mem_cons.mp held with rfl | held
      · exact (prefix_foldl_addMask cap rs _).subset
          (mem_addMask (lt_of_le_of_lt grown.length_le room) r)
      · exact ih room r held

/-- Every code point's mask is in the alphabet, while the alphabet is not full. -/
theorem propMask_mem {cap : Nat} (room : (allMasks ranges cap).length < cap) (cp : Nat) :
    propMask ranges cp ∈ allMasks ranges cap := by
  have zero : 0 ∈ allMasks ranges cap :=
    (prefix_foldl_addMask cap ranges [0]).subset (List.mem_singleton_self 0)
  unfold propMask
  split
  · exact zero
  · rename_i r last
    split
    · have held := (List.takeWhile_prefix _).subset (List.mem_of_getLast? last)
      exact mem_foldl_addMask room r held
    · exact zero

theorem classOf_ok {masks : List Nat} {m : Nat} (mem : m ∈ masks) : ∃ i, classOf masks m = .ok i := by
  have found : masks.idxOf? m ≠ none := fun none => List.idxOf?_eq_none_iff.mp none mem
  obtain ⟨i, is⟩ := Option.ne_none_iff_exists'.mp found
  exact ⟨i, by rw [classOf, is]⟩

theorem stageStep_ok {masks : List Nat} (known : ∀ cp, propMask ranges cp ∈ masks)
    (acc : List Nat × List (List Nat)) (bi : Nat) :
    ∃ acc', stageStep ranges masks acc bi = .ok acc' := by
  obtain ⟨block, made⟩ := @mapM_ok _ _ _ (fun j => classOf masks (propMask ranges (bi * 128 + j)))
    (List.range 128) fun j _ => classOf_ok (known _)
  unfold stageStep blockAt
  rw [made]
  simp only [bind, Except.bind, pure, Except.pure]
  split <;> exact ⟨_, rfl⟩

theorem foldlM_stageStep_ok {masks : List Nat} (known : ∀ cp, propMask ranges cp ∈ masks)
    (bis : List Nat) (acc : List Nat × List (List Nat)) :
    ∃ acc', bis.foldlM (stageStep ranges masks) acc = .ok acc' := by
  induction bis generalizing acc with
  | nil => exact ⟨acc, rfl⟩
  | cons bi bis ih =>
      obtain ⟨acc', here⟩ := stageStep_ok known acc bi
      obtain ⟨acc'', later⟩ := ih acc'
      refine ⟨acc'', ?_⟩
      rw [List.foldlM_cons, here]
      exact later

/-- **The constructor** fails only at a limit: of the alphabet, or of the tables.  It never
finds a grammar that accepts the empty string. -/
theorem construct_ends (few : (allMasks ranges 256).length < 250) :
    (∃ t, construct ranges = .ok t) ∨
      (construct ranges = .error Subset.tooLarge ∧
        Subset.TooMany (Nfa.init.compile buildGrammar).1 (allMasks ranges 256)
          (Nfa.init.compile buildGrammar).2.1) := by
  have known := @propMask_mem ranges 256 (by omega)
  obtain ⟨stages, staging⟩ := foldlM_stageStep_ok known (List.range (0x110000 / 128)) ([], [])
  obtain ⟨asciiCls, ascii⟩ := @mapM_ok _ _ _ (fun c => classOf (allMasks ranges 256)
    (propMask ranges c)) (List.range 128) fun c _ => classOf_ok (known c)
  unfold construct
  dsimp only
  rw [if_neg (by omega), staging, ascii]
  rcases tables_accept_grammar buildGrammar (allMasks ranges 256) with
    ⟨tables, is, accepts, -⟩ | ⟨is, many⟩
  · have plain : tables.accept.getD 0 0 = 0 := by
      by_contra accepting
      have empty : tables.accepts (allMasks ranges 256).length [] = true := by
        rw [Subset.accepts, Subset.run]
        simpa using accepting
      have inLang := (accepts [] (List.forall_mem_nil _)).mp empty
      rw [Node.nil_mem_lang, Node.buildGrammar_plain.1] at inLang
      cases inLang
    rw [is]
    simp only [bind, Except.bind, pure, Except.pure]
    rw [if_neg (not_not.mpr plain)]
    exact .inl ⟨_, rfl⟩
  · rw [is]
    exact .inr ⟨rfl, many⟩

/-- A table without properties makes a tokenizer. -/
theorem exists_construct_nil : ∃ t, construct [] = .ok t := by
  have plain : ((Nfa.init.compile buildGrammar).1.preds.all fun pred => !pred.matches 0) = true := by
    decide +kernel
  have stuck : ∀ x a y,
      ¬ ((Nfa.init.compile buildGrammar).1.graph (allMasks [] 256)).edge x a y := by
    rintro x a y ⟨p, pred, m, -, held, mask, holds, -⟩
    obtain rfl : m = 0 := List.mem_singleton.mp (List.mem_of_getElem? mask)
    have refuses := List.all_eq_true.mp plain pred (List.mem_of_getElem? held)
    rw [holds] at refuses
    cases refuses
  rcases construct_ends (show (allMasks [] 256).length < 250 by decide) with ok | ⟨-, words, many, -, distinct⟩
  · exact ok
  · exfalso
    have two : words.map (((Nfa.init.compile buildGrammar).1.graph (allMasks [] 256)).reached
        {(Nfa.init.compile buildGrammar).2.1}) ⊆
        [((Nfa.init.compile buildGrammar).1.graph (allMasks [] 256)).reached
          {(Nfa.init.compile buildGrammar).2.1} [], ∅] := by
      intro T mem
      obtain ⟨w, -, rfl⟩ := List.mem_map.mp mem
      cases w with
      | nil => exact List.mem_cons_self
      | cons c w =>
          rw [Thompson.Graph.reached_of_no_edge stuck]
          exact List.mem_cons_of_mem _ (List.mem_singleton_self _)
    have fewer := (distinct.subperm two).length_le
    rw [List.length_map, List.length_cons, List.length_singleton] at fewer
    omega

end StandardTokenizer

end HybridSearch.Engine
