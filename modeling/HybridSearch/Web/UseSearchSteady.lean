/-
# Web.UseSearchSteady -- what instant search shows

Every event of a request does one of three things (`next_cases`): it changes the
request only; it lists a response, which it does while the request is live; or it
shows an error, again while the request is live.  So a list that is not stale is
one that the latest request was sent (`Belongs`), in every run.

A final list that is shown stays as long as no stream fails behind it: an error
event, an unreadable one or a broken connection after `final` is caught like any
other failure, and replaces the phase and marks the list stale.  `Calm` excludes
exactly those steps (`instant_search`).
-/
import HybridSearch.Web.UseSearch

namespace HybridSearch.Web.UseSearch

open HybridSearch.Theory

set_option autoImplicit false

/-! ## What one event does -/

def StreamPhase.shown : StreamPhase → SearchPhase
  | .lexical => .lexical
  | .final => .final

/-- The event brings a response to request `gen`. -/
def Delivers (gen : Nat) (phase : StreamPhase) (resp : SearchResponse) : Act → Prop
  | .message g (.lexical (.ok resp')) _ => g = gen ∧ phase = .lexical ∧ resp' = resp
  | .message g (.final (.ok resp')) _ => g = gen ∧ phase = .final ∧ resp' = resp
  | .reply g (.ok resp') _ => g = gen ∧ phase = .final ∧ resp' = resp
  | _ => False

/-- A later state of the closure of one effect. -/
structure Follows (r r' : Request) : Prop where
  params : r'.params = r.params
  aborted : r'.aborted = r.aborted
  fallback : r'.stage = .fallback → r'.gotFinal = false

/-- The event changes its request only. -/
def Quiet (s : State) (gen : Nat) (r : Request) (t : State) : Prop :=
  ∃ r', t = s.put gen r' ∧ Follows r r' ∧ r'.gotFinal = r.gotFinal

/-- The event lists a response of its request. -/
def Lists (s : State) (gen : Nat) (r : Request) (a : Act) (t : State) : Prop :=
  s.live gen r = true ∧ ∃ phase resp r' clientMs, Delivers gen phase resp a ∧
    (phase = .lexical → r.gotFinal = false) ∧ Follows r r' ∧
    r'.gotFinal = (r.gotFinal || phase = .final) ∧
    t = { s.put gen r' with
      shown := ⟨StreamPhase.shown phase, some r.params, some resp, false, none, r.trace, clientMs⟩ }

/-- The event shows an error of its request. -/
def Fails (s : State) (gen : Nat) (r : Request) (a : Act) (t : State) : Prop :=
  s.live gen r = true ∧ ∃ e, isAbortError e = false ∧ t = s.showError gen r e ∧
    ((State.thrownBy r a = some e ∧ r.gotFinal = true) ∨
      (r.stage = .fallback ∧ State.thrownBy r a = none))

namespace State

variable {s : State} {gen : Nat} {r : Request} {a : Act}

@[simp] theorem put_generation (r : Request) : (s.put gen r).generation = s.generation := rfl
@[simp] theorem put_deps (r : Request) : (s.put gen r).deps = s.deps := rfl
@[simp] theorem put_params (r : Request) : (s.put gen r).params = s.params := rfl
@[simp] theorem put_shown (r : Request) : (s.put gen r).shown = s.shown := rfl

@[simp] theorem put_requests_self (r : Request) : (s.put gen r).requests gen = some r :=
  Function.update_self ..

theorem put_requests_of_ne {g : Nat} (other : g ≠ gen) (r : Request) :
    (s.put gen r).requests g = s.requests g := Function.update_of_ne other ..

theorem put_cases {g : Nat} {r r' : Request} (held : (s.put gen r).requests g = some r') :
    (g = gen ∧ r' = r) ∨ (g ≠ gen ∧ s.requests g = some r') := by
  by_cases same : g = gen
  · subst same
    rw [put_requests_self, Option.some.injEq] at held
    exact .inl ⟨rfl, held.symm⟩
  · rw [put_requests_of_ne same] at held
    exact .inr ⟨same, held⟩

theorem put_self (held : s.requests gen = some r) : s.put gen r = s := by
  unfold put
  rw [← held, Function.update_eq_self]

theorem onResults_cases {phase : StreamPhase} {resp : SearchResponse} {now : Rat} {r' : Request}
    (follows : Follows r r') (same : r'.gotFinal = r.gotFinal) (trace : r'.trace = r.trace)
    (delivers : Delivers gen phase resp a) (early : r'.stage ≠ .fallback) :
    Quiet s gen r (s.onResults gen r' phase resp now) ∨
      Lists s gen r a (s.onResults gen r' phase resp now) := by
  have liveSame : s.live gen r' = s.live gen r := by rw [live, live, follows.aborted]
  unfold onResults
  rw [liveSame]
  by_cases isLive : s.live gen r = true
  · rw [isLive, Bool.not_true, if_neg Bool.false_ne_true]
    cases phase with
    | lexical =>
        dsimp only
        split
        · exact .inl ⟨r', rfl, follows, same⟩
        · rename_i fresh
          refine .inr ⟨isLive, .lexical, resp, { r' with lexicalMs := some (now - r'.t0) },
            ⟨some (now - r'.t0), none⟩, delivers, fun _ => ?_, ?_, ?_, ?_⟩
          · rw [← same]
            exact Bool.eq_false_iff.mpr fresh
          · exact ⟨follows.params, follows.aborted, fun fallback => absurd fallback early⟩
          · simp [same]
          · rw [follows.params, trace]
            rfl
    | final =>
        refine .inr ⟨isLive, .final, resp, { r' with gotFinal := true },
          ⟨r'.lexicalMs, some (now - r'.t0)⟩, delivers, fun no => (nomatch no), ?_, ?_, ?_⟩
        · exact ⟨follows.params, follows.aborted, fun fallback => absurd fallback early⟩
        · simp
        · dsimp only
          rw [follows.params, trace]
          rfl
  · rw [Bool.eq_false_iff.mpr isLive, Bool.not_false, if_pos rfl]
    exact .inl ⟨r', rfl, follows, same⟩

theorem caught_cases {e : Failure} (thrown : thrownBy r a = some e) :
    Quiet s gen r (s.caught gen r e) ∨ Fails s gen r a (s.caught gen r e) := by
  unfold caught
  split
  · exact .inl ⟨_, rfl, ⟨rfl, rfl, fun no => (nomatch no)⟩, rfl⟩
  · rename_i real
    simp only [Bool.or_eq_true, Bool.not_eq_true', not_or, Bool.not_eq_false, Bool.not_eq_true]
      at real
    split
    · rename_i early
      refine .inl ⟨_, rfl, ⟨rfl, rfl, fun _ => ?_⟩, rfl⟩
      simpa using early
    · rename_i late
      refine .inr ⟨real.2, e, real.1, rfl, .inl ⟨thrown, ?_⟩⟩
      simpa using late

theorem onMessage_cases {event : StreamEvent} {now : Rat} (held : s.requests gen = some r)
    (reading : r.stage = .reading) :
    Quiet s gen r (s.onMessage gen r event now) ∨
      Lists s gen r (.message gen event now) (s.onMessage gen r event now) := by
  have early : r.stage ≠ .fallback := by
    rw [reading]
    decide
  have still : Follows r r := ⟨rfl, rfl, fun fallback => absurd fallback early⟩
  unfold onMessage
  split
  · exact .inl ⟨r, (put_self held).symm, still, rfl⟩
  · split
    · exact onResults_cases still rfl rfl ⟨rfl, rfl, rfl⟩ early
    · exact onResults_cases ⟨rfl, rfl, fun fallback => absurd fallback early⟩ rfl rfl
        ⟨rfl, rfl, rfl⟩ early
    · exact .inl ⟨_, rfl, ⟨rfl, rfl, fun fallback => absurd fallback early⟩, rfl⟩
    · exact .inl ⟨_, rfl, ⟨rfl, rfl, fun fallback => absurd fallback early⟩, rfl⟩
    · exact .inl ⟨_, rfl, ⟨rfl, rfl, fun fallback => absurd fallback early⟩, rfl⟩
    · exact .inl ⟨r, (put_self held).symm, still, rfl⟩

/-- **What one event does**: it is quiet, lists a response or shows an error. -/
theorem next_cases {t : State} (held : s.requests gen = some r) (belongs : a.gen? = some gen)
    (stepped : s.next gen r a = some t) :
    Quiet s gen r t ∨ Lists s gen r a t ∨ Fails s gen r a t := by
  unfold next at stepped
  split at stepped
  · cases stepped
    exact .inl ⟨_, rfl, ⟨rfl, rfl, fun no => (nomatch no)⟩, rfl⟩
  · rename_i fetching
    split at stepped
    · rename_i e thrown
      cases stepped
      rcases caught_cases thrown with quiet | fails
      · exact .inl quiet
      · exact .inr (.inr fails)
    · cases stepped
      exact .inl ⟨_, rfl, ⟨rfl, rfl, fun no => (nomatch no)⟩, rfl⟩
  · cases stepped
    rcases @caught_cases s gen r (.rejected _ _) _ rfl with quiet | fails
    · exact .inl quiet
    · exact .inr (.inr fails)
  · cases stepped
    rcases @caught_cases s gen r (.rejected _ _) _ rfl with quiet | fails
    · exact .inl quiet
    · exact .inr (.inr fails)
  · rename_i reading
    cases stepped
    cases belongs
    rcases onMessage_cases held reading with quiet | lists
    · exact .inl quiet
    · exact .inr (.inl lists)
  · split at stepped
    · rename_i e thrown
      cases stepped
      rcases caught_cases thrown with quiet | fails
      · exact .inl quiet
      · exact .inr (.inr fails)
    · cases stepped
      exact .inl ⟨_, rfl, ⟨rfl, rfl, fun no => (nomatch no)⟩, rfl⟩
  · rename_i g result now fallback
    cases stepped
    cases belongs
    cases result with
    | ok resp =>
        have follows : Follows r { r with stage := .done } := ⟨rfl, rfl, fun no => (nomatch no)⟩
        rcases @onResults_cases s gen r (.reply gen (.ok resp) now) .final resp now _ follows rfl rfl
          ⟨rfl, rfl, rfl⟩ (fun no => nomatch no) with quiet | lists
        · exact .inl quiet
        · exact .inr (.inl lists)
    | error e =>
        unfold replied
        dsimp only
        split
        · exact .inl ⟨_, rfl, ⟨rfl, rfl, fun no => (nomatch no)⟩, rfl⟩
        · rename_i real
          simp only [Bool.or_eq_true, Bool.not_eq_true', not_or, Bool.not_eq_false,
            Bool.not_eq_true] at real
          exact .inr (.inr ⟨real.2, e, real.1, rfl, .inr ⟨fallback, rfl⟩⟩)
  · cases stepped

end State

/-- **What a step does.** -/
theorem step_cases {s t : State} {a : Act} (stepped : step s a = some t) :
    (∃ params, a = .render params ∧ t = { s with params }) ∨ (a = .effect ∧ t = s.effect) ∨
      ∃ gen r, a.gen? = some gen ∧ s.requests gen = some r ∧ s.next gen r a = some t ∧
        (Quiet s gen r t ∨ Lists s gen r a t ∨ Fails s gen r a t) := by
  unfold step at stepped
  split at stepped
  · cases stepped
    exact .inl ⟨_, rfl, rfl⟩
  · cases stepped
    exact .inr (.inl ⟨rfl, rfl⟩)
  · obtain ⟨gen, belongs, stepped⟩ := Option.bind_eq_some_iff.mp stepped
    obtain ⟨r, held, stepped⟩ := Option.bind_eq_some_iff.mp stepped
    exact .inr (.inr ⟨gen, r, belongs, held, stepped, State.next_cases held belongs stepped⟩)

/-! ## Every run -/

/-- **What holds in every run**: of the latest request, and of the list that is shown. -/
structure Inv (trace : List Act) (s : State) : Prop where
  fresh : ∀ g r, s.requests g = some r → g ≤ s.generation
  keyed : ∀ r, s.requests s.generation = some r →
    s.deps = some (paramsKey (some r.params)) ∧ blank r.params = false
  current : ∀ r, s.requests s.generation = some r → r.aborted = false
  fallback : ∀ g r, s.requests g = some r → r.stage = .fallback → r.gotFinal = false
  listed : ∀ resp, s.shown.response = some resp → s.shown.stale = false →
    ∃ r phase, s.requests s.generation = some r ∧ s.shown.params = some r.params ∧
      s.shown.phase = StreamPhase.shown phase ∧ ∃ a ∈ trace, Delivers s.generation phase resp a
  final : s.shown.phase = .final → s.shown.stale = false ∧
    ∃ r, s.requests s.generation = some r ∧ r.gotFinal = true ∧ s.shown.params = some r.params

variable {trace : List Act} {s t : State} {a : Act} {gen : Nat} {r : Request}

theorem inv_init : Inv [] system.start where
  fresh _ _ held := nomatch held
  keyed _ held := nomatch held
  current _ held := nomatch held
  fallback _ _ held := nomatch held
  listed _ response := nomatch response
  final final := nomatch final

theorem Inv.render (inv : Inv trace s) (params : Option SearchParams) :
    Inv (trace ++ [.render params]) { s with params } := by
  obtain ⟨fresh, keyed, current, fallback, listed, final⟩ := inv
  refine ⟨fresh, keyed, current, fallback, fun resp response now => ?_, final⟩
  obtain ⟨r, phase, held, params, shown, a, mem, delivers⟩ := listed resp response now
  exact ⟨r, phase, held, params, shown, a, List.mem_append_left _ mem, delivers⟩

theorem cleanup_requests (s : State) (g : Nat) (r : Request) (held : s.cleanup.requests g = some r) :
    ∃ r', s.requests g = some r' ∧ (r.stage = .fallback → r'.stage = .fallback) ∧
      r.gotFinal = r'.gotFinal := by
  unfold State.cleanup at held
  split at held
  · exact ⟨r, held, id, rfl⟩
  · rename_i old is
    rcases State.put_cases held with ⟨rfl, rfl⟩ | ⟨-, before⟩
    · refine ⟨old, is, fun fallback => ?_, rfl⟩
      dsimp only at fallback
      split at fallback
      · cases fallback
      · exact fallback
    · exact ⟨r, before, id, rfl⟩

/-- **The effect** starts the next generation, with a request or without. -/
theorem effect_cases (s : State) :
    (s.effect.shown = IDLE ∧ s.effect.requests = s.cleanup.requests ∧
      s.effect.generation = s.generation + 1) ∨
    ∃ r, s.effect.requests = Function.update s.cleanup.requests (s.generation + 1) (some r) ∧
      s.effect.generation = s.generation + 1 ∧ s.effect.deps = some (paramsKey (some r.params)) ∧
      blank r.params = false ∧ r.aborted = false ∧ r.gotFinal = false ∧ r.stage = .waiting ∧
      s.effect.shown.phase = .loading ∧
      s.effect.shown.response = s.cleanup.shown.response ∧
      s.effect.shown.stale = s.cleanup.shown.response.isSome := by
  have same : s.cleanup.params = s.params := by
    unfold State.cleanup
    split <;> rfl
  unfold State.effect
  dsimp only
  rw [same]
  split
  · exact .inl ⟨rfl, rfl, rfl⟩
  · rename_i p is
    split
    · exact .inl ⟨rfl, rfl, rfl⟩
    · rename_i some
      exact .inr ⟨_, rfl, rfl, congrArg _ (congrArg _ is), Bool.eq_false_iff.mpr some, rfl, rfl,
        rfl, rfl, rfl, rfl⟩

theorem Inv.effect (inv : Inv trace s) : Inv (trace ++ [.effect]) s.effect := by
  have old : ∀ g r, s.cleanup.requests g = some r →
      g ≤ s.generation ∧ (r.stage = .fallback → r.gotFinal = false) := by
    intro g r held
    obtain ⟨r', before, stage, got⟩ := cleanup_requests s g r held
    exact ⟨inv.fresh g r' before, fun fallback => got ▸ inv.fallback g r' before (stage fallback)⟩
  rcases effect_cases s with ⟨shown, requests, generation⟩ |
    ⟨r, requests, generation, deps, some, aborted, early, waiting, phase, response, stale⟩
  · -- no request has the new generation
    have none : ∀ r, s.effect.requests s.effect.generation ≠ some r := by
      intro r held
      rw [requests, generation] at held
      exact absurd (old _ r held).1 (by omega)
    refine ⟨fun g r held => ?_, fun r held => absurd held (none r),
      fun r held => absurd held (none r), fun g r held => ?_, fun resp response => ?_, fun final => ?_⟩
    · rw [requests] at held
      rw [generation]
      exact (old g r held).1.trans (Nat.le_succ _)
    · rw [requests] at held
      exact (old g r held).2
    · rw [shown] at response
      cases response
    · rw [shown] at final
      cases final
  · have request_eq : ∀ g r', s.effect.requests g = .some r' →
        (g = s.generation + 1 ∧ r' = r) ∨ s.cleanup.requests g = .some r' := by
      intro g r' held
      rw [requests] at held
      by_cases new : g = s.generation + 1
      · subst new
        rw [Function.update_self, Option.some.injEq] at held
        exact .inl ⟨rfl, held.symm⟩
      · rw [Function.update_of_ne new] at held
        exact .inr held
    have latest : ∀ r', s.effect.requests s.effect.generation = .some r' → r' = r := by
      intro r' held
      rcases request_eq _ r' held with ⟨-, same⟩ | before
      · exact same
      · rw [generation] at before
        exact absurd (old _ r' before).1 (by omega)
    refine ⟨fun g r' held => ?_, fun r' held => ?_, fun r' held => ?_, fun g r' held => ?_,
      fun resp is fresh => ?_, fun final => ?_⟩
    · rw [generation]
      rcases request_eq g r' held with ⟨rfl, -⟩ | before
      · exact le_rfl
      · exact (old g r' before).1.trans (Nat.le_succ _)
    · rw [latest r' held]
      exact ⟨deps, some⟩
    · rw [latest r' held]
      exact aborted
    · rcases request_eq g r' held with ⟨-, rfl⟩ | before
      · exact fun _ => early
      · exact (old g r' before).2
    · rw [stale, ← response, is] at fresh
      cases fresh
    · rw [phase] at final
      cases final

/-- What an event keeps of the requests, whatever it shows. -/
theorem Inv.put_requests (inv : Inv trace s) (held : s.requests gen = some r) {r' : Request}
    (follows : Follows r r') :
    (∀ g x, (s.put gen r').requests g = some x → g ≤ s.generation) ∧
      (∀ x, (s.put gen r').requests s.generation = some x →
        s.deps = some (paramsKey (some x.params)) ∧ blank x.params = false) ∧
      (∀ x, (s.put gen r').requests s.generation = some x → x.aborted = false) ∧
      ∀ g x, (s.put gen r').requests g = some x → x.stage = .fallback → x.gotFinal = false := by
  refine ⟨fun g x now => ?_, fun x now => ?_, fun x now => ?_, fun g x now => ?_⟩
  · rcases State.put_cases now with ⟨rfl, -⟩ | ⟨-, before⟩
    · exact inv.fresh _ r held
    · exact inv.fresh g x before
  · rcases State.put_cases now with ⟨latest, rfl⟩ | ⟨-, before⟩
    · rw [follows.params]
      exact inv.keyed r (latest ▸ held)
    · exact inv.keyed x before
  · rcases State.put_cases now with ⟨latest, rfl⟩ | ⟨-, before⟩
    · rw [follows.aborted]
      exact inv.current r (latest ▸ held)
    · exact inv.current x before
  · rcases State.put_cases now with ⟨-, rfl⟩ | ⟨-, before⟩
    · exact follows.fallback
    · exact inv.fallback g x before

theorem live_iff : s.live gen r = true ↔ gen = s.generation ∧ r.aborted = false := by
  simp [State.live]

theorem Inv.quiet (inv : Inv trace s) (held : s.requests gen = some r) (quiet : Quiet s gen r t) :
    Inv (trace ++ [a]) t := by
  obtain ⟨r', rfl, follows, same⟩ := quiet
  obtain ⟨fresh, keyed, current, fallback⟩ := inv.put_requests held follows
  -- the latest request is the same up to what no list depends on
  have latest : ∀ x, s.requests s.generation = some x → ∃ y,
      (s.put gen r').requests s.generation = some y ∧ y.params = x.params ∧
        y.gotFinal = x.gotFinal := by
    intro x before
    by_cases here : s.generation = gen
    · rw [here] at before ⊢
      rw [held, Option.some.injEq] at before
      subst before
      exact ⟨r', State.put_requests_self r', follows.params, same⟩
    · exact ⟨x, by rw [State.put_requests_of_ne here, before], rfl, rfl⟩
  refine ⟨fresh, keyed, current, fallback, fun resp response now => ?_, fun final => ?_⟩
  · obtain ⟨x, phase, before, params, shown, b, mem, delivers⟩ := inv.listed resp response now
    obtain ⟨y, after, kept, -⟩ := latest x before
    exact ⟨y, phase, after, kept ▸ params, shown, b, List.mem_append_left _ mem, delivers⟩
  · obtain ⟨now, x, before, got, params⟩ := inv.final final
    obtain ⟨y, after, kept, sameFinal⟩ := latest x before
    exact ⟨now, y, after, sameFinal.trans got, kept ▸ params⟩

theorem Inv.lists (inv : Inv trace s) (held : s.requests gen = some r) (lists : Lists s gen r a t) :
    Inv (trace ++ [a]) t := by
  obtain ⟨isLive, phase, resp, r', clientMs, delivers, -, follows, got, rfl⟩ := lists
  obtain ⟨fresh, keyed, current, fallback⟩ := inv.put_requests held follows
  obtain ⟨rfl, -⟩ := live_iff.mp isLive
  refine ⟨fresh, keyed, current, fallback, fun resp' response _ => ?_, fun final => ⟨rfl, ?_⟩⟩
  · cases response
    exact ⟨r', phase, State.put_requests_self r', congrArg some follows.params.symm, rfl, a,
      List.mem_concat_self, delivers⟩
  · refine ⟨r', State.put_requests_self r', ?_, congrArg some follows.params.symm⟩
    cases phase with
    | lexical => cases final
    | final =>
        rw [got]
        simp

theorem Inv.fails (inv : Inv trace s) (held : s.requests gen = some r) (fails : Fails s gen r a t) :
    Inv (trace ++ [a]) t := by
  obtain ⟨isLive, e, -, rfl, -⟩ := fails
  have follows : Follows r { r with stage := .done } := ⟨rfl, rfl, fun no => nomatch no⟩
  obtain ⟨fresh, keyed, current, fallback⟩ := inv.put_requests held follows
  refine ⟨fresh, keyed, current, fallback, fun resp response now => ?_, fun final => nomatch final⟩
  have response : s.shown.response = some resp := response
  have now : s.shown.response.isSome = false := now
  rw [response] at now
  cases now

theorem Inv.step (inv : Inv trace s) (stepped : step s a = some t) : Inv (trace ++ [a]) t := by
  rcases step_cases stepped with ⟨params, rfl, rfl⟩ | ⟨rfl, rfl⟩ |
    ⟨gen, r, -, held, -, quiet | lists | fails⟩
  · exact inv.render params
  · exact inv.effect
  · exact inv.quiet held quiet
  · exact inv.lists held lists
  · exact inv.fails held fails

theorem inv_of_run (run : system.Run trace s) : Inv trace s :=
  system.run_induction inv_init (fun _ _ _ _ inv stepped => inv.step stepped) run

/-! ## A final list -/

/-- **The step ends the stream of the current request with a failure, after its final
list**: not by an abort. -/
def failsLate (s : State) (a : Act) : Bool :=
  (a.gen?.bind fun gen => (s.requests gen).bind fun r => (State.thrownBy r a).map fun e =>
    s.live gen r && r.gotFinal && !isAbortError e).getD false

/-- No stream fails behind its final list. -/
def Calm (s : State) (a : Act) : Prop := failsLate s a = false

instance (s : State) (a : Act) : Decidable (Calm s a) := inferInstanceAs (Decidable (_ = _))

/-- A request that was sent its final list is shown with it. -/
def Settled (s : State) : Prop :=
  ∀ r, s.requests s.generation = some r → r.gotFinal = true → s.shown.phase = .final

/-- The final list stays: the phase, that it is not stale, and the list itself, unless the
request is sent another final list. -/
def Kept (s : State) (a : Act) (t : State) : Prop :=
  t.shown.phase = .final ∧ t.shown.stale = false ∧ t.shown.params = s.shown.params ∧
    (t.shown.response = s.shown.response ∨
      ∃ resp, Delivers s.generation .final resp a ∧ t.shown.response = some resp)

theorem failsLate_iff : failsLate s a = true ↔ ∃ gen r e, a.gen? = some gen ∧
    s.requests gen = some r ∧ State.thrownBy r a = some e ∧ s.live gen r = true ∧
      r.gotFinal = true ∧ isAbortError e = false := by
  unfold failsLate
  constructor
  · intro fails
    cases belongs : a.gen? with
    | none => simp [belongs] at fails
    | some gen =>
        cases held : s.requests gen with
        | none => simp [belongs, held] at fails
        | some r =>
            cases thrown : State.thrownBy r a with
            | none => simp [belongs, held, thrown] at fails
            | some e =>
                simp only [belongs, held, thrown, Option.bind_some, Option.map_some, Option.getD_some,
                  Bool.and_eq_true, Bool.not_eq_true'] at fails
                exact ⟨gen, r, e, rfl, held, thrown, fails.1.1, fails.1.2, fails.2⟩
  · rintro ⟨gen, r, e, belongs, held, thrown, isLive, got, real⟩
    simp [belongs, held, thrown, isLive, got, real]

theorem Settled.step (settled : Settled s) (inv : Inv trace s) (calm : Calm s a)
    (stepped : step s a = some t) : Settled t := by
  rcases step_cases stepped with ⟨params, rfl, rfl⟩ | ⟨rfl, rfl⟩ |
    ⟨gen, r, belongs, held, -, quiet | lists | fails⟩
  · exact settled
  · intro r held got
    rcases effect_cases s with ⟨-, requests, generation⟩ | ⟨new, requests, generation, -, -, -, early, -⟩
    · rw [requests, generation] at held
      obtain ⟨old, before, -⟩ := cleanup_requests s _ r held
      exact absurd (inv.fresh _ old before) (by omega)
    · rw [requests, generation, Function.update_self, Option.some.injEq] at held
      subst held
      rw [early] at got
      cases got
  · obtain ⟨r', rfl, -, same⟩ := quiet
    intro x now got
    rcases State.put_cases now with ⟨latest, rfl⟩ | ⟨-, before⟩
    · exact settled r (latest ▸ held) (same ▸ got)
    · exact settled x before got
  · obtain ⟨isLive, phase, resp, r', clientMs, -, first, -, got, rfl⟩ := lists
    obtain ⟨rfl, -⟩ := live_iff.mp isLive
    intro x now final
    have now : (s.put s.generation r').requests s.generation = some x := now
    rw [State.put_requests_self, Option.some.injEq] at now
    subst now
    cases phase with
    | lexical =>
        rw [got, first rfl] at final
        cases final
    | final => rfl
  · obtain ⟨isLive, e, real, rfl, ⟨thrown, got⟩ | ⟨fallback, -⟩⟩ := fails
    · exact absurd (failsLate_iff.mpr ⟨gen, r, e, belongs, held, thrown, isLive, got, real⟩)
        (Bool.eq_false_iff.mp calm)
    · obtain ⟨rfl, -⟩ := live_iff.mp isLive
      intro x now final
      have now : (s.put s.generation { r with stage := .done }).requests s.generation = some x := now
      rw [State.put_requests_self, Option.some.injEq] at now
      subst now
      have early := inv.fallback _ r held fallback
      rw [early] at final
      cases final

/-- **A calm step keeps a final list.** -/
theorem kept_of_calm (inv : Inv trace s) (calm : Calm s a) (stepped : step s a = some t)
    (change : a ≠ .effect) (shown : s.shown.phase = .final) : Kept s a t := by
  obtain ⟨fresh, latest, request_eq, got, params⟩ := inv.final shown
  rcases step_cases stepped with ⟨params', rfl, rfl⟩ | ⟨rfl, rfl⟩ |
    ⟨gen, r, belongs, held, -, quiet | lists | fails⟩
  · exact ⟨shown, fresh, rfl, .inl rfl⟩
  · exact absurd rfl change
  · obtain ⟨r', rfl, -⟩ := quiet
    exact ⟨shown, fresh, rfl, .inl rfl⟩
  · obtain ⟨isLive, phase, resp, r', clientMs, delivers, first, -, -, rfl⟩ := lists
    obtain ⟨rfl, -⟩ := live_iff.mp isLive
    obtain rfl : latest = r := Option.some.inj (request_eq.symm.trans held)
    cases phase with
    | lexical =>
        rw [first rfl] at got
        cases got
    | final => exact ⟨rfl, rfl, params.symm, .inr ⟨resp, delivers, rfl⟩⟩
  · obtain ⟨isLive, e, real, rfl, ⟨thrown, late⟩ | ⟨fallback, -⟩⟩ := fails
    · exact absurd (failsLate_iff.mpr ⟨gen, r, e, belongs, held, thrown, isLive, late, real⟩)
        (Bool.eq_false_iff.mp calm)
    · obtain ⟨rfl, -⟩ := live_iff.mp isLive
      obtain rfl : latest = r := Option.some.inj (request_eq.symm.trans held)
      rw [inv.fallback _ latest held fallback] at got
      cases got

theorem next_of_thrown {e : Failure} (thrown : State.thrownBy r a = some e)
    (stepped : s.next gen r a = some t) : t = s.caught gen r e := by
  unfold State.next at stepped
  split at stepped
  · cases thrown
  · rw [thrown] at stepped
    exact (Option.some.inj stepped).symm
  · cases thrown
    exact (Option.some.inj stepped).symm
  · cases thrown
    exact (Option.some.inj stepped).symm
  · cases thrown
  · rw [thrown] at stepped
    exact (Option.some.inj stepped).symm
  · cases thrown
  · cases stepped

/-- **A failure behind the final list** takes the list's place: the phase is `error`, and the
list is marked stale. -/
theorem failed_of_failsLate (fails : failsLate s a = true) (settled : Settled s)
    (stepped : step s a = some t) : s.shown.phase = .final ∧ a ≠ .effect ∧
      t.shown.phase = .error ∧ t.shown.stale = t.shown.response.isSome := by
  obtain ⟨gen, r, e, belongs, held, thrown, isLive, got, real⟩ := failsLate_iff.mp fails
  obtain ⟨rfl, -⟩ := live_iff.mp isLive
  refine ⟨settled r held got, ?_, ?_⟩
  · rintro rfl
    cases belongs
  · rcases step_cases stepped with ⟨params, rfl, -⟩ | ⟨rfl, -⟩ | ⟨gen', r', for', held', next', -⟩
    · cases belongs
    · cases belongs
    · obtain rfl : gen' = s.generation := Option.some.inj (for'.symm.trans belongs)
      obtain rfl : r' = r := Option.some.inj (held'.symm.trans held)
      obtain rfl := next_of_thrown thrown next'
      have shows : s.caught s.generation r' e = s.showError s.generation r' e := by
        rw [State.caught, isLive, real, got]
        rfl
      rw [shows]
      exact ⟨rfl, rfl⟩

/-! ## The main result -/

/-- **A list that is not stale belongs to the latest parameters**: they are not empty, the
list is shown with parameters of their key, and the request for these was sent it. -/
def Belongs (trace : List Act) (s : State) : Prop :=
  ∀ resp, s.shown.response = some resp → s.shown.stale = false → ∃ p r phase,
    s.shown.params = some p ∧ blank p = false ∧ s.deps = some (paramsKey (some p)) ∧
      s.requests s.generation = some r ∧ r.params = p ∧
      s.shown.phase = StreamPhase.shown phase ∧ ∃ a ∈ trace, Delivers s.generation phase resp a

/-- **A final list stays** at every step of the run but the effect for other parameters. -/
def Steady (trace : List Act) : Prop :=
  ∀ front a back m t, trace = front ++ a :: back → system.exec system.start front = some m →
    step m a = some t → a ≠ .effect → m.shown.phase = .final → Kept m a t

theorem Inv.belongs (inv : Inv trace s) : Belongs trace s := by
  intro resp response fresh
  obtain ⟨r, phase, held, params, shown, a, mem, delivers⟩ := inv.listed resp response fresh
  obtain ⟨key, keyed⟩ := inv.keyed r held
  exact ⟨r.params, r, phase, params, keyed, key, held, rfl, shown, a, mem, delivers⟩

theorem settled_of_stepsMeet (run : system.Run trace s)
    (calm : system.StepsMeet Calm system.start trace) : Settled s := by
  induction trace using List.reverseRecOn generalizing s with
  | nil =>
      cases run
      exact fun r held => nomatch held
  | append_singleton front a ih =>
      obtain ⟨m, before, stepped⟩ := system.run_snoc.mp run
      obtain ⟨early, last⟩ := system.stepsMeet_append calm before
      exact (ih before early).step (inv_of_run before) last.1 stepped

theorem steady_of_stepsMeet (calm : system.StepsMeet Calm system.start trace) : Steady trace := by
  rintro front a back m t rfl before stepped change shown
  obtain ⟨-, last⟩ := system.stepsMeet_append calm before
  exact kept_of_calm (inv_of_run before) last.1 stepped change shown

theorem stepsMeet_of_steady (run : system.Run trace s) (steady : Steady trace) :
    system.StepsMeet Calm system.start trace := by
  induction trace using List.reverseRecOn generalizing s with
  | nil => trivial
  | append_singleton front a ih =>
      obtain ⟨m, before, stepped⟩ := system.run_snoc.mp run
      have early := ih before fun front' a' back' m' t' cut => by
        refine steady front' a' (back' ++ [a]) m' t' ?_
        rw [cut, List.append_assoc, List.cons_append]
      refine system.stepsMeet_snoc early fun m' before' => ?_
      obtain rfl : m = m' := Option.some.inj (before.symm.trans before')
      by_contra late
      have fails : failsLate m a = true := by simpa [Calm] using late
      obtain ⟨shown, change, phase, -⟩ :=
        failed_of_failsLate fails (settled_of_stepsMeet before early) stepped
      have kept := steady front a [] m s rfl before stepped change shown
      rw [kept.1] at phase
      cases phase

/-- **Instant search**: in every run a list that is not stale belongs to the latest
parameters, and final lists stay exactly when no stream of the current request fails behind
its final list. -/
theorem instant_search (trace : List Act) (s : State) (run : system.Run trace s) :
    Belongs trace s ∧ (Steady trace ↔ system.StepsMeet Calm system.start trace) :=
  ⟨(inv_of_run run).belongs, stepsMeet_of_steady run, steady_of_stepsMeet⟩

/-! ### Two runs -/

def sample : SearchParams := ⟨[0x78], .hybrid, true, none, none, none, none⟩

def listOf (requestId : String) : SearchResponse := ⟨requestId, "x", [], none⟩

/-- The page opens with a query, and its stream sends both lists. -/
def opened : List Act :=
  [.render (some sample), .effect, .timer 1 ⟨"1", "2", true⟩ 0, .answered 1 .ok,
    .message 1 (.lexical (.ok (listOf "l"))) 1, .message 1 (.final (.ok (listOf "f"))) 2]

theorem instant_search_opened : ∃ s, system.Run (opened ++ [.ended 1]) s ∧
    Belongs (opened ++ [.ended 1]) s ∧ Steady (opened ++ [.ended 1]) := by
  have ran : (system.exec system.start (opened ++ [.ended 1])).isSome = true := by decide
  obtain ⟨s, replay⟩ := Option.isSome_iff_exists.mp ran
  have run : system.Run (opened ++ [.ended 1]) s := replay
  have both := instant_search (opened ++ [.ended 1]) s run
  exact ⟨s, run, both.1, both.2.mpr (by decide)⟩

/-- An error event behind the final list replaces it. -/
theorem error_behind_final : ¬ ∀ trace s, system.Run trace s → Belongs trace s ∧ Steady trace := by
  intro all
  have ran : (system.exec system.start
      (opened ++ [.message 1 (.error none) 3] ++ [.ended 1])).isSome = true := by decide
  obtain ⟨s, run⟩ := Option.isSome_iff_exists.mp ran
  obtain ⟨m, before, stepped⟩ := system.run_snoc.mp run
  have final : (system.exec system.start (opened ++ [.message 1 (.error none) 3])).all
      (fun m => m.shown.phase = .final) = true := by decide
  have error : (system.exec system.start (opened ++ [.message 1 (.error none) 3] ++ [.ended 1])).all
      (fun m => m.shown.phase = .error) = true := by decide
  rw [show system.exec system.start (opened ++ [.message 1 (.error none) 3]) = some m from before]
    at final
  rw [show system.exec system.start _ = some s from run] at error
  have kept := (all _ s run).2 _ (.ended 1) [] m s rfl before stepped (fun no => nomatch no)
    (by simpa using final)
  have phase : s.shown.phase = .error := by simpa using error
  rw [kept.1] at phase
  cases phase

end HybridSearch.Web.UseSearch
