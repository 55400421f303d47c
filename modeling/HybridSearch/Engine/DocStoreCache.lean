/-
# Engine.DocStoreCache -- one thread reading many document stores

A thread opens stores and asks for texts in any order; each `ZSTD_decompress` it
makes may fail and then leaves any bytes in the thread's buffer.  `Good` is what
makes a cache hit safe: the buffer holds the raw block the key names.

* `good_of_run`: `Good` in every state of a run in which no decompression fails
  over a buffer that a key still names;
* `text_returns_written`: there every text asked for comes back as written;
* `text_returns_clobbered`: `text` replaces the buffer before the key, so after
  a failure under an old key that key returns the bytes the failure left.
-/
import HybridSearch.Engine.DocStore
import HybridSearch.Theory.Transition

namespace HybridSearch.Engine

open HybridSearch.Theory DocStoreWriter

set_option autoImplicit false

namespace DocStoreThread

variable {Z : Zstd}

/-- `opened` keeps each store beside what was written in its directory. -/
structure State (Z : Zstd) where
  nextId : Nat
  opened : List (Written Z × DocStore)
  cache : BlockCache

inductive Label (Z : Zstd)
  | «open» (d : Written Z) (failure : Option Failure)
  | text (handle : Nat) (ordinal : UInt32) (failure : Option Failure)

/-- `g_store_ids` starts at 1, and a failed `open` has drawn its id. -/
def step (haveZstd : Bool) (s : State Z) : Label Z → Option (State Z)
  | .open d failure =>
      match DocStore.open Z haveZstd d.files s.nextId failure with
      | .ok store => some { s with nextId := s.nextId + 1, opened := s.opened ++ [(d, store)] }
      | .error _ => some { s with nextId := s.nextId + 1 }
  | .text handle ordinal failure =>
      match s.opened[handle]? with
      | none => none
      | some (_, store) =>
          some { s with cache := (store.text Z s.cache ordinal.toNat failure).2 }

def thread (Z : Zstd) (haveZstd : Bool) : System (State Z) (Label Z) where
  start := ⟨1, [], BlockCache.initial⟩
  step := step haveZstd

/-- `text` has to decompress: the store is compressed and the key names another block. -/
def Decompresses (store : DocStore) (cache : BlockCache) (ordinal : Nat) : Prop :=
  store.compressed = true ∧ ordinal < store.numDocs ∧
    (cache.cachedStore ≠ store.id ∨ cache.cachedBlock ≠ DocStore.upperBound store.idx ordinal - 1)

/-- The step does not fail a decompression while the cache has a key. -/
def KeepsBuffer (s : State Z) : Label Z → Prop
  | .open _ _ => True
  | .text handle ordinal failure =>
      ∀ d store, s.opened[handle]? = some (d, store) → failure.isSome → s.cache.cachedStore ≠ 0 →
        ¬ Decompresses store s.cache ordinal.toNat

/-- What a call may answer. -/
def Answer (d : Written Z) (ordinal : UInt32) (failure : Option Failure)
    (answer : Except Fault Bytes) : Prop :=
  match d.texts[ordinal.toNat]? with
  | none => answer = .error (.thrown "docstore: ordinal out of range")
  | some t => answer = .ok t ∨
      failure.isSome ∧ answer = .error (.thrown "docstore: decompress failed")

/-- Every call that could come next answers what was written. -/
def Serves (s : State Z) : Prop :=
  ∀ (handle : Nat) (d : Written Z) (store : DocStore), s.opened[handle]? = some (d, store) → ∀ ordinal failure,
    Answer d ordinal failure (store.text Z s.cache ordinal.toNat failure).1

/-! ## The invariant -/

/-- The buffer holds the raw block that the key names. -/
def BlockCache.Names (cache : BlockCache) (d : Written Z) (store : DocStore) : Prop :=
  store.id = cache.cachedStore ∧
    ∃ texts, d.blocks[cache.cachedBlock]? = some texts ∧ cache.block = rawBlock texts

structure Good (s : State Z) : Prop where
  next : 0 < s.nextId
  stores : ∀ p ∈ s.opened, p.2 = p.1.opened p.2.id ∧ 0 < p.2.id ∧ p.2.id < s.nextId
  distinct : ∀ p ∈ s.opened, ∀ q ∈ s.opened, p.2.id = q.2.id → p = q
  cached : s.cache.cachedStore = 0 ∨ ∃ p ∈ s.opened, BlockCache.Names s.cache p.1 p.2

theorem good_start (haveZstd : Bool) : Good (thread Z haveZstd).start where
  next := Nat.one_pos
  stores := by
    intro p mem
    cases mem
  distinct := by
    intro p mem
    cases mem
  cached := .inl rfl

/-- Two opened stores never share an id, so a hit is a hit on this store. -/
theorem Good.names {s : State Z} (good : Good s) {d : Written Z} {store : DocStore}
    (mem : (d, store) ∈ s.opened) (hit : s.cache.cachedStore = store.id) :
    BlockCache.Names s.cache d store := by
  obtain ⟨-, positive, -⟩ := good.stores _ mem
  rcases good.cached with zero | ⟨p, other, names⟩
  · simp only at positive
    omega
  · have same := good.distinct _ other _ mem (names.1.trans hit)
    subst same
    exact names

/-- **One call**: its answer, and the cache it leaves. -/
theorem Good.text {s : State Z} (good : Good s) {d : Written Z} {store : DocStore}
    (mem : (d, store) ∈ s.opened) (ordinal : UInt32) (failure : Option Failure) :
    Answer d ordinal failure (store.text Z s.cache ordinal.toNat failure).1 ∧
      ((store.text Z s.cache ordinal.toNat failure).2 = s.cache ∨
        BlockCache.Names (store.text Z s.cache ordinal.toNat failure).2 d store ∨
        Decompresses store s.cache ordinal.toNat ∧ failure.isSome ∧
          (store.text Z s.cache ordinal.toNat failure).2.cachedStore = s.cache.cachedStore) := by
  obtain ⟨isOpened, -, -⟩ := good.stores _ mem
  simp only at isOpened
  have docs : store.numDocs = d.texts.length := by rw [isOpened]; rfl
  have idx : store.idx = d.files.idx := by rw [isOpened]; rfl
  have compressed : store.compressed = d.haveZstd := by rw [isOpened]; rfl
  have data : store.data = d.files.bin := by rw [isOpened]; rfl
  cases found : d.texts[ordinal.toNat]? with
  | none =>
      have outside : store.numDocs ≤ ordinal.toNat := by
        rw [docs]
        exact List.getElem?_eq_none_iff.mp found
      rw [DocStore.text, if_pos outside]
      refine ⟨?_, .inl rfl⟩
      rw [Answer, found]
  | some t =>
      have inside : ordinal.toNat < store.numDocs := by
        rw [docs]
        exact (List.getElem?_eq_some_iff.mp found).1
      obtain ⟨bi, texts, e, block, upper, entry, cut⟩ :=
        Written.find_block ordinal.toNat_lt found
      rw [← idx] at upper entry
      have miss := Written.blockOf_block block (idx ▸ entry) failure
      by_cases hit : s.cache.cachedStore = store.id ∧ s.cache.cachedBlock = bi
      · obtain ⟨-, texts', block', buffer⟩ := good.names mem hit.1
        rw [hit.2, block] at block'
        cases block'
        have answer : store.text Z s.cache ordinal.toNat failure = (.ok t, s.cache) := by
          simp only [DocStore.text, if_neg (Nat.not_le.mpr inside), upper, entry,
            if_neg (show ¬ (s.cache.cachedStore ≠ store.id ∨ s.cache.cachedBlock ≠ bi) by
              simpa using hit), buffer, cut]
        rw [answer]
        refine ⟨?_, .inl rfl⟩
        rw [Answer, found]
        exact .inl rfl
      · have away : s.cache.cachedStore ≠ store.id ∨ s.cache.cachedBlock ≠ bi := by
          by_cases same : s.cache.cachedStore = store.id
          · exact .inr fun same' => hit ⟨same, same'⟩
          · exact .inl same
        have fills : ∀ block left, DocStore.blockOf Z d.haveZstd d.files.bin e failure =
            (.ok block, left) → store.text Z s.cache ordinal.toNat failure =
              (DocStore.cut block e.first ordinal.toNat, ⟨store.id, bi, block⟩) := by
          intro block left read
          simp only [DocStore.text, if_neg (Nat.not_le.mpr inside), upper, entry, if_pos away,
            compressed, data, read]
        have fails : ∀ fault left, DocStore.blockOf Z d.haveZstd d.files.bin e failure =
            (.error fault, left) → store.text Z s.cache ordinal.toNat failure =
              (.error fault, { s.cache with block := left.getD s.cache.block }) := by
          intro fault left read
          simp only [DocStore.text, if_neg (Nat.not_le.mpr inside), upper, entry, if_pos away,
            compressed, data, read]
        have kept : BlockCache.Names ⟨store.id, bi, rawBlock texts⟩ d store :=
          ⟨rfl, texts, block, rfl⟩
        rw [Answer, found]
        cases zstd : d.haveZstd with
        | false =>
            rw [zstd] at fills miss
            rw [fills _ _ miss]
            exact ⟨.inl cut, .inr (.inl kept)⟩
        | true =>
            rw [zstd] at fills fails miss
            cases failure with
            | none =>
                rw [fills _ _ miss]
                exact ⟨.inl cut, .inr (.inl kept)⟩
            | some left =>
                rw [fails _ _ miss]
                refine ⟨.inr ⟨rfl, rfl⟩, .inr (.inr ⟨⟨compressed.trans zstd, inside, ?_⟩, rfl, rfl⟩)⟩
                rw [upper]
                exact away

/-! ## Whole runs -/

theorem good_step {haveZstd : Bool} {s t : State Z} {label : Label Z} (good : Good s)
    (keeps : KeepsBuffer s label) (stepped : step haveZstd s label = some t) : Good t := by
  cases label with
  | «open» d failure =>
      simp only [step] at stepped
      split at stepped
      · rename_i store opened
        cases stepped
        have isOpened := Written.open_eq opened
        have id : store.id = s.nextId := by rw [isOpened]; rfl
        have fresh : ∀ p ∈ s.opened, p.2.id ≠ store.id := by
          intro p mem same
          have := (good.stores p mem).2.2
          omega
        constructor
        · exact Nat.succ_pos _
        · intro p mem
          rcases List.mem_append.mp mem with old | new
          · obtain ⟨isOpened, positive, known⟩ := good.stores p old
            exact ⟨isOpened, positive, Nat.lt_succ_of_lt known⟩
          · cases List.mem_singleton.mp new
            refine ⟨id ▸ isOpened, ?_, ?_⟩
            · simp only [id]
              exact good.next
            · simp only [id]
              exact Nat.lt_succ_self _
        · intro p memP q memQ same
          rcases List.mem_append.mp memP with oldP | newP
          · rcases List.mem_append.mp memQ with oldQ | newQ
            · exact good.distinct p oldP q oldQ same
            · cases List.mem_singleton.mp newQ
              exact absurd same (fresh p oldP)
          · cases List.mem_singleton.mp newP
            rcases List.mem_append.mp memQ with oldQ | newQ
            · exact absurd same.symm (fresh q oldQ)
            · exact (List.mem_singleton.mp newQ).symm
        · rcases good.cached with zero | ⟨p, mem, names⟩
          · exact .inl zero
          · exact .inr ⟨p, List.mem_append_left _ mem, names⟩
      · cases stepped
        exact ⟨Nat.succ_pos _, fun p mem => ⟨(good.stores p mem).1, (good.stores p mem).2.1,
          Nat.lt_succ_of_lt (good.stores p mem).2.2⟩, good.distinct, good.cached⟩
  | text handle ordinal failure =>
      simp only [step] at stepped
      split at stepped
      · cases stepped
      · rename_i d store store_eq
        cases stepped
        have mem := List.mem_of_getElem? store_eq
        refine ⟨good.next, good.stores, good.distinct, ?_⟩
        rcases (good.text mem ordinal failure).2 with same | names | ⟨misses, fails, key⟩
        · simp only [same]
          exact good.cached
        · exact .inr ⟨_, mem, names⟩
        · refine .inl (key.trans ?_)
          by_contra named
          exact keeps d store store_eq fails named misses

theorem good_of_run {haveZstd : Bool} {trace : List (Label Z)} {s : State Z}
    (run : (thread Z haveZstd).Run trace s)
    (keeps : (thread Z haveZstd).StepsMeet KeepsBuffer (thread Z haveZstd).start trace) : Good s :=
  (thread Z haveZstd).run_induction_of_stepsMeet (good_start haveZstd)
    (fun _ _ _ good keeps stepped => good_step good keeps stepped) run keeps

/-- **Reads return what was written.**  In every run in which no decompression fails while the
cache has a key, every call on every store answers the text written there: ordinals out of range
throw, and a call on a known ordinal gives its text unless its own decompression fails. -/
theorem text_returns_written {haveZstd : Bool} {trace : List (Label Z)} {s : State Z}
    (run : (thread Z haveZstd).Run trace s)
    (keeps : (thread Z haveZstd).StepsMeet KeepsBuffer (thread Z haveZstd).start trace) :
    Serves s := by
  intro handle d store opened ordinal failure
  exact ((good_of_run run keeps).text (List.mem_of_getElem? opened) ordinal failure).1

/-! ## Two stores -/

/-- A codec that stores: a magic number and the bytes. -/
def storedFrames : Zstd where
  compress _ raw := [0x28, 0xB5, 0x2F, 0xFD] ++ raw
  decompress c := c.drop 4
  contentSize c := if c.take 4 = [0x28, 0xB5, 0x2F, 0xFD] then some (c.length - 4) else none
  restores _ raw := rfl
  sized _ raw := by simp

/-- Two one-document blocks, "a" and "b". -/
def twoBlocks : Written storedFrames where
  haveZstd := true
  level := 3
  blocks := [[[0x61]], [[0x62]]]
  nonempty := by decide
  small := by decide
  ordinals := by decide

/-- Open it, read ordinal 0, and fail to decompress the block of ordinal 1. -/
def failingTrace (failure : Option Failure) : List (Label storedFrames) :=
  [.open twoBlocks none, .text 0 0 none, .text 0 1 failure]

/-- The state it ends in. -/
def failingEnd (failure : Option Failure) : State storedFrames where
  nextId := 2
  opened := [(twoBlocks, twoBlocks.opened 1)]
  cache := (DocStore.text storedFrames (twoBlocks.opened 1) ⟨1, 0, rawBlock [[0x61]]⟩ 1 failure).2

theorem run_failingTrace (failure : Option Failure) :
    (thread storedFrames true).Run (failingTrace failure) (failingEnd failure) := by
  have opened := @Written.open_ok storedFrames twoBlocks true (fun _ => rfl) 1
  have first : (DocStore.text storedFrames (twoBlocks.opened 1) BlockCache.initial 0 none).2 =
      ⟨1, 0, rawBlock [[0x61]]⟩ := by
    decide +kernel
  refine (System.exec_cons_eq_some _).mpr ⟨_, by simp only [thread, step, opened]; rfl, ?_⟩
  refine (System.exec_cons_eq_some _).mpr ⟨_, rfl, ?_⟩
  refine (System.exec_cons_eq_some _).mpr ⟨_, rfl, ?_⟩
  simp only [UInt32.toNat_zero, first]
  rfl

/-- The run without the failure serves every text. -/
theorem text_returns_written_two : Serves (failingEnd none) :=
  text_returns_written (run_failingTrace none) (by
    refine ⟨trivial, fun s _ => ⟨fun _ _ _ fails => ?_, fun t _ => ⟨fun _ _ _ fails => ?_,
      fun _ _ => trivial⟩⟩⟩
    · cases fails
    · cases fails)

/-- **A failed decompression leaves the old key over the new bytes.**  After it, ordinal 0 comes
back as bytes of the failure, not as "a". -/
theorem text_returns_clobbered :
    ¬ ∀ (Z : Zstd) (haveZstd : Bool) (trace : List (Label Z)) (s : State Z),
      (thread Z haveZstd).Run trace s → Serves s := by
  intro always
  -- the failing call leaves a block whose count and end offset are 1 and whose text is 0xFF
  let left : Failure := fun i => [1, 0, 0, 0, 1, 0, 0, 0, 0xFF].getD i 0
  have served := always storedFrames true _ _ (run_failingTrace (some left))
  have answer := served 0 twoBlocks (twoBlocks.opened 1) rfl 0 none
  have wrong : (DocStore.text storedFrames (twoBlocks.opened 1) (failingEnd (some left)).cache 0
      none).1 = .ok [0xFF] := by
    decide +kernel
  change _ ∨ _ at answer
  rcases answer with right | ⟨failed, _⟩
  · cases wrong.symm.trans right
  · cases failed

end DocStoreThread

end HybridSearch.Engine
