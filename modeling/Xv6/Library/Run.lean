import Mathlib.Algebra.Group.Hom.Defs

/-!
# Runs of a partial step function

A system given by a step function `step : σ → ε → Option σ` takes an event
and either moves to a new state or cannot take that event (`none`).  A run
replays a list of events; a state is reachable when some run from an initial
state ends in it.

Two induction rules carry every whole-run argument: an invariant preserved by
each step holds along every run, and a quantity that each step changes by a
known charge ends as its start plus the charges of the run, summed in any
commutative monoid.  A guard `Always Q` restricts such a rule to runs whose
every step satisfies `Q`.
-/

namespace Run

variable {σ ε M : Type}

/-- Replay `es` from `s`, stopping with `none` at the first event that cannot happen. -/
def exec (step : σ → ε → Option σ) : σ → List ε → Option σ
  | s, [] => some s
  | s, e :: es =>
      match step s e with
      | none => none
      | some s' => exec step s' es

/-- A state some run from a state satisfying `init` ends in. -/
def Reachable (step : σ → ε → Option σ) (init : σ → Prop) (s : σ) : Prop :=
  ∃ s₀ es, init s₀ ∧ exec step s₀ es = some s

/-- Every step of the run of `es` from `s` satisfies `Q` in the state it starts from. -/
def Always (step : σ → ε → Option σ) (Q : σ → ε → Prop) : σ → List ε → Prop
  | _, [] => True
  | s, e :: es =>
      Q s e ∧
        match step s e with
        | none => True
        | some s' => Always step Q s' es

/-- The sum of `charge` over the steps of the run of `es` from `s`. -/
def ledger [AddCommMonoid M] (step : σ → ε → Option σ) (charge : σ → ε → M) :
    σ → List ε → M
  | _, [] => 0
  | s, e :: es =>
      match step s e with
      | none => 0
      | some s' => charge s e + ledger step charge s' es

variable {step : σ → ε → Option σ}

/-- Whether a guard holds along a concrete run is decided by replaying it. -/
instance decidableAlways {Q : σ → ε → Prop} [∀ s e, Decidable (Q s e)] :
    ∀ (s : σ) (es : List ε), Decidable (Always step Q s es)
  | _, [] => isTrue trivial
  | s, e :: es =>
      match h : step s e with
      | none => decidable_of_iff (Q s e) (by simp only [Always, h, and_true])
      | some s' =>
          have : Decidable (Always step Q s' es) := decidableAlways s' es
          decidable_of_iff (Q s e ∧ Always step Q s' es) (by simp only [Always, h])

@[simp] theorem exec_nil (s : σ) : exec step s [] = some s := rfl

theorem exec_cons_of_step {s s' : σ} {e : ε} (es : List ε) (h : step s e = some s') :
    exec step s (e :: es) = exec step s' es := by
  simp only [exec, h]

theorem exec_cons_some {s t : σ} {e : ε} {es : List ε}
    (h : exec step s (e :: es) = some t) :
    ∃ s', step s e = some s' ∧ exec step s' es = some t := by
  simp only [exec] at h
  cases hs : step s e with
  | none =>
      rw [hs] at h
      cases h
  | some s' =>
      rw [hs] at h
      exact ⟨s', rfl, h⟩

theorem exec_append (s : σ) (es fs : List ε) :
    exec step s (es ++ fs) = (exec step s es).bind (fun t => exec step t fs) := by
  induction es generalizing s with
  | nil => rfl
  | cons e es ih =>
      simp only [List.cons_append, exec]
      cases step s e with
      | none => rfl
      | some s' => exact ih s'

theorem foldlM_eq_exec (s : σ) (es : List ε) : es.foldlM step s = exec step s es := by
  induction es generalizing s with
  | nil => rfl
  | cons e es ih =>
      rw [List.foldlM_cons]
      cases hs : step s e with
      | none =>
          simp only [exec, hs]
          rfl
      | some s' =>
          rw [exec_cons_of_step es hs]
          exact ih s'

theorem exists_exec_of_map_decide (P : σ → Prop) [DecidablePred P] {s : σ} {es : List ε}
    (h : (exec step s es).map (fun t => decide (P t)) = some true) :
    ∃ t, exec step s es = some t ∧ P t := by
  obtain ⟨t, ht, hp⟩ := Option.map_eq_some_iff.mp h
  exact ⟨t, ht, of_decide_eq_true hp⟩

theorem exec_invariant {P : σ → Prop}
    (hstep : ∀ s e s', P s → step s e = some s' → P s') :
    ∀ {s t : σ} {es : List ε}, exec step s es = some t → P s → P t := by
  intro s t es hrun hs
  induction es generalizing s with
  | nil =>
      cases hrun
      exact hs
  | cons e es ih =>
      obtain ⟨s', hstep', hrest⟩ := exec_cons_some hrun
      exact ih hrest (hstep s e s' hs hstep')

theorem exec_trace_invariant {P : List ε → σ → Prop}
    (hstep : ∀ es s e s', P es s → step s e = some s' → P (es ++ [e]) s') :
    ∀ {s t : σ} {pre es : List ε}, exec step s es = some t → P pre s → P (pre ++ es) t := by
  intro s t pre es hrun hs
  induction es generalizing s pre with
  | nil =>
      cases hrun
      rw [List.append_nil]
      exact hs
  | cons e es ih =>
      obtain ⟨s', hs', hrest⟩ := exec_cons_some hrun
      have h := ih hrest (hstep pre s e s' hs hs')
      rwa [List.append_assoc, List.singleton_append] at h

/-- The trace rule for runs that do not stop: when a step from any point of
`es`, taken from a state with the property of the events before it, succeeds
and extends the property, the run of `es` succeeds. -/
theorem exec_trace_exists {P : List ε → σ → Prop} (es : List ε)
    (hstep : ∀ pre e post s, pre ++ e :: post = es → P pre s → ∃ s', step s e = some s' ∧ P (pre ++ [e]) s') :
    ∀ s, P [] s → ∃ t, exec step s es = some t ∧ P es t := by
  -- the events still to run, after those that have run
  suffices h : ∀ post pre s, pre ++ post = es → P pre s → ∃ t, exec step s post = some t ∧ P es t from
    fun s hs => h es [] s rfl hs
  intro post
  induction post with
  | nil =>
      intro pre s hpre hs
      rw [List.append_nil] at hpre
      subst hpre
      exact ⟨s, rfl, hs⟩
  | cons e post ih =>
      intro pre s hpre hs
      obtain ⟨s', hs', hP⟩ := hstep pre e post s hpre hs
      rw [exec_cons_of_step post hs']
      exact ih (pre ++ [e]) s' (by rw [List.append_assoc, List.singleton_append, hpre]) hP

theorem not_mem_pre {es pre post : List ε} {e : ε} (hnd : es.Nodup) (h : pre ++ e :: post = es) : e ∉ pre :=
  fun he => (List.nodup_append.mp (h ▸ hnd)).2.2 e he e List.mem_cons_self rfl

theorem exec_invariant_of_always {P : σ → Prop} {Q : σ → ε → Prop}
    (hstep : ∀ s e s', Q s e → P s → step s e = some s' → P s') :
    ∀ {s t : σ} {es : List ε}, exec step s es = some t → Always step Q s es → P s → P t := by
  intro s t es hrun hQ hs
  induction es generalizing s with
  | nil =>
      cases hrun
      exact hs
  | cons e es ih =>
      obtain ⟨s', hs', hrest⟩ := exec_cons_some hrun
      simp only [Always, hs'] at hQ
      exact ih hrest hQ.2 (hstep s e s' hQ.1 hs hs')

theorem Reachable.induction {init P : σ → Prop} (hinit : ∀ s, init s → P s)
    (hstep : ∀ s e s', P s → step s e = some s' → P s') {s : σ}
    (h : Reachable step init s) : P s := by
  obtain ⟨s₀, es, hs₀, hrun⟩ := h
  exact exec_invariant hstep hrun (hinit s₀ hs₀)

theorem Reachable.of_step {init : σ → Prop} {s s' : σ} {e : ε}
    (h : Reachable step init s) (hs : step s e = some s') :
    Reachable step init s' := by
  obtain ⟨s₀, es, hs₀, hrun⟩ := h
  refine ⟨s₀, es ++ [e], hs₀, ?_⟩
  rw [exec_append, hrun]
  simp only [Option.bind_some, exec, hs]

/--
The ledger rule: if each step allowed by the guard `Q` changes `f` by its
charge, a guarded run changes `f` by the run's ledger.
-/
theorem exec_ledger [AddCommMonoid M] {Q : σ → ε → Prop} (f : σ → M)
    (charge : σ → ε → M)
    (hstep : ∀ s e s', Q s e → step s e = some s' → f s' = f s + charge s e) :
    ∀ {s t : σ} {es : List ε}, exec step s es = some t → Always step Q s es →
      f t = f s + ledger step charge s es := by
  intro s t es hrun hQ
  induction es generalizing s with
  | nil =>
      cases hrun
      simp only [ledger, add_zero]
  | cons e es ih =>
      obtain ⟨s', hs', hrest⟩ := exec_cons_some hrun
      simp only [Always, hs'] at hQ
      simp only [ledger, hs']
      rw [ih hrest hQ.2, hstep s e s' hQ.1 hs', add_assoc]

theorem ledger_map {N : Type} [AddCommMonoid M] [AddCommMonoid N]
    (step : σ → ε → Option σ) (φ : M →+ N) (charge : σ → ε → M) (s : σ) (es : List ε) :
    φ (ledger step charge s es) = ledger step (fun s e => φ (charge s e)) s es := by
  induction es generalizing s with
  | nil => exact map_zero φ
  | cons e es ih =>
      simp only [ledger]
      cases step s e with
      | none => exact map_zero φ
      | some s' => rw [map_add, ih s']

theorem ledger_congr_of_always [AddCommMonoid M] {Q : σ → ε → Prop}
    {charge charge' : σ → ε → M} (hcharge : ∀ s e, Q s e → charge s e = charge' s e) :
    ∀ {s : σ} {es : List ε}, Always step Q s es →
      ledger step charge s es = ledger step charge' s es := by
  intro s es hQ
  induction es generalizing s with
  | nil => rfl
  | cons e es ih =>
      cases hs : step s e with
      | none => simp only [ledger, hs]
      | some s' =>
          simp only [Always, hs] at hQ
          simp only [ledger, hs]
          rw [hcharge s e hQ.1, ih hQ.2]

theorem always_of_invariant {P : σ → Prop} {Q : σ → ε → Prop}
    (hstep : ∀ s e s', P s → step s e = some s' → P s') (hQ : ∀ s e, P s → Q s e) :
    ∀ {s : σ} {es : List ε}, P s → Always step Q s es := by
  intro s es hs
  induction es generalizing s with
  | nil => trivial
  | cons e es ih =>
      refine ⟨hQ s e hs, ?_⟩
      cases hse : step s e with
      | none => trivial
      | some s' => exact ih (hstep s e s' hs hse)

/--
The simulation rule: a map of states that carries each step from a state
satisfying an invariant `P` to a step of a second system, and takes the same
events there, carries every run from such a state to the run of the second
system on the same events.
-/
theorem exec_map_of_commute {τ : Type} {step' : τ → ε → Option τ} (f : σ → τ) (P : σ → Prop)
    (hstep : ∀ s e s', P s → step s e = some s' → P s')
    (hcomm : ∀ s e, P s → (step s e).map f = step' (f s) e) :
    ∀ (es : List ε) (s : σ), P s → (exec step s es).map f = exec step' (f s) es := by
  intro es
  induction es with
  | nil =>
      intro s _
      rfl
  | cons e es ih =>
      intro s hs
      have hc := hcomm s e hs
      cases h : step s e with
      | none =>
          rw [h] at hc
          simp only [exec, h, ← hc, Option.map_none]
      | some s' =>
          rw [h] at hc
          simp only [exec, h, ← hc, Option.map_some]
          exact ih s' (hstep s e s' hs h)

end Run
