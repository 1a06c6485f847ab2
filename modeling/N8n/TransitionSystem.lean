import Mathlib.Data.List.Basic

/-! Guarded executable transition systems. `step s e` is `some s'` when event `e`
is enabled in state `s` and `none` otherwise, so one function serves replay of a
concrete trace and induction over all runs.
A property of every reachable state follows from one step lemma. Where the
property needs a condition on the steps taken, the condition is a predicate on
the state before the step and the event, never on what the step computes. -/

namespace N8n

open Option

section Always

variable {σ : Type*} {P : σ → Prop} {s : σ} {next other : Option σ} {c : Prop} [Decidable c]

/-- What holds of the state after a step, when the step is enabled. -/
def Always (P : σ → Prop) (next : Option σ) : Prop := ∀ s, next = some s → P s

theorem Always.some (holds : P s) : Always P (.some s) := fun _ same => some.inj same ▸ holds

theorem Always.none : Always P .none := nofun

theorem Always.ite (pos : c → Always P next) (neg : ¬c → Always P other) : Always P (if c then next else other) := by
  split_ifs with holds
  · exact pos holds
  · exact neg holds

theorem Always.guard (pos : c → P s) : Always P (if c then .some s else .none) :=
  ite (fun holds => some (pos holds)) fun _ => none

theorem Always.refuse (neg : ¬c → Always P next) : Always P (if c then .none else next) :=
  ite (fun _ => none) neg

end Always

structure TransitionSystem (σ ε : Type*) where
  init : σ
  step : σ → ε → Option σ

namespace TransitionSystem

variable {σ ε : Type*} (sys : TransitionSystem σ ε)

def runFrom : σ → List ε → Option σ
  | s, [] => some s
  | s, e :: es => (sys.step s e).bind fun s' => runFrom s' es

def run (es : List ε) : Option σ := sys.runFrom sys.init es

/-- States reached from the initial state by enabled steps that all meet `C`. -/
inductive ReachableVia (C : σ → ε → Prop) : σ → Prop
  | init : ReachableVia C sys.init
  | step {s s' : σ} {e : ε} : ReachableVia C s → C s e → sys.step s e = some s' → ReachableVia C s'

/-- States reached by enabled steps, with no condition on them. -/
def Reachable : σ → Prop := sys.ReachableVia fun _ _ => True

/-- Replays a trace as long as every step passes a decidable check. -/
def runChecked (check : σ → ε → Bool) : σ → List ε → Option σ
  | s, [] => some s
  | s, e :: es => if check s e then (sys.step s e).bind fun s' => runChecked check s' es else none

/-- Every state that the run `es` passes through from `s`, both ends included,
satisfies `P`. -/
def AllStates (P : σ → Prop) : σ → List ε → Prop
  | s, [] => P s
  | s, e :: es => P s ∧ ∀ s', sys.step s e = some s' → AllStates P s' es

/-- Every step that the run `es` takes from `s` meets `C`. -/
def AllSteps (C : σ → ε → Prop) : σ → List ε → Prop
  | _, [] => True
  | s, e :: es => ∀ s', sys.step s e = some s' → C s e ∧ AllSteps C s' es

variable {sys}

theorem Reachable.initial : sys.Reachable sys.init := ReachableVia.init

variable {s : σ}

theorem Reachable.next {s' : σ} {e : ε} (h : sys.Reachable s)
    (taken : sys.step s e = some s') : sys.Reachable s' := ReachableVia.step h trivial taken

variable {C : σ → ε → Prop}

theorem ReachableVia.reachable (h : sys.ReachableVia C s) : sys.Reachable s := by
  induction h with
  | init => exact .initial
  | step _ _ taken ih => exact ih.next taken

variable {P : σ → Prop}

/-- The conditional invariant rule: steps that meet `C` preserve `P`. -/
theorem ReachableVia.invariant (start : P sys.init) (preserved : ∀ s e s', P s → C s e → sys.step s e = some s' → P s')
    (h : sys.ReachableVia C s) : P s := by
  induction h with
  | init => exact start
  | step _ meets taken ih => exact preserved _ _ _ ih meets taken

theorem Reachable.invariant (start : P sys.init) (preserved : ∀ s e s', P s → sys.step s e = some s' → P s')
    (h : sys.Reachable s) : P s :=
  ReachableVia.invariant start (fun s e s' hs _ taken => preserved s e s' hs taken) h

variable {t : σ}

theorem reachable_runFrom (h : sys.Reachable s) (es : List ε) (done : sys.runFrom s es = some t) : sys.Reachable t := by
  induction es generalizing s with
  | nil =>
    simp only [runFrom, some.injEq] at done
    exact done ▸ h
  | cons e es ih =>
    simp only [runFrom, bind_eq_some_iff] at done
    obtain ⟨s', taken, rest⟩ := done
    exact ih (h.next taken) rest

variable {es : List ε} {C' : σ → ε → Prop}

theorem reachable_run (done : sys.run es = some t) : sys.Reachable t :=
  reachable_runFrom .initial es done

theorem reachableVia_runFrom (h : sys.ReachableVia C s)
    (meets : sys.AllSteps C s es) (done : sys.runFrom s es = some t) : sys.ReachableVia C t := by
  induction es generalizing s with
  | nil =>
    cases done
    exact h
  | cons e es ih =>
    simp only [runFrom, bind_eq_some_iff] at done
    obtain ⟨s', taken, rest⟩ := done
    obtain ⟨here, later⟩ := meets s' taken
    exact ih (.step h here taken) later rest

theorem runFrom_append (s : σ) (es later : List ε) :
    sys.runFrom s (es ++ later) = (sys.runFrom s es).bind fun t => sys.runFrom t later := by
  induction es generalizing s with
  | nil => rfl
  | cons e es ih =>
    simp only [List.cons_append, runFrom]
    cases sys.step s e with
    | none => rfl
    | some s' => exact ih s'

theorem runFrom_follows {R : σ → σ → Prop} (refl : ∀ s, R s s) (trans : ∀ {s t u}, R s t → R t u → R s u)
    (follows : ∀ s e s', sys.step s e = some s' → R s s') (done : sys.runFrom s es = some t) : R s t := by
  induction es generalizing s with
  | nil =>
    cases done
    exact refl _
  | cons e es ih =>
    simp only [runFrom, bind_eq_some_iff] at done
    obtain ⟨s', taken, rest⟩ := done
    exact trans (follows s e s' taken) (ih rest)

theorem allSteps_congr (agree : ∀ s e s', sys.step s e = some s' → (C s e ↔ C' s e)) (s : σ) (es : List ε) :
    sys.AllSteps C s es ↔ sys.AllSteps C' s es := by
  induction es generalizing s with
  | nil => rfl
  | cons e es ih =>
    refine forall_congr' fun s' => imp_congr_right fun taken => ?_
    exact and_congr (agree s e s' taken) (ih s')

theorem AllSteps.allStates {Q : σ → Prop}
    (preserved : ∀ s e s', P s → C s e → sys.step s e = some s' → P s') (gives : ∀ s, P s → Q s)
    (holds : P s) (meets : sys.AllSteps C s es) : sys.AllStates Q s es := by
  induction es generalizing s with
  | nil => exact gives s holds
  | cons e es ih =>
    refine ⟨gives s holds, fun s' taken => ?_⟩
    obtain ⟨here, later⟩ := meets s' taken
    exact ih (preserved s e s' holds here taken) later

theorem AllSteps.of_invariant (preserved : ∀ s e s', P s → C s e → sys.step s e = some s' → P s')
    (gives : ∀ s e s', P s → C s e → sys.step s e = some s' → C' s e) (holds : P s) (meets : sys.AllSteps C s es) :
    sys.AllSteps C' s es := by
  induction es generalizing s with
  | nil => trivial
  | cons e es ih =>
    intro s' taken
    obtain ⟨here, later⟩ := meets s' taken
    exact ⟨gives s e s' holds here taken, ih (preserved s e s' holds here taken) later⟩

/-- A replayed trace ends in a state that is reachable by steps of the checked kind. -/
theorem reachableVia_runChecked (check : σ → ε → Bool)
    (sound : ∀ s e, check s e = true → C s e) (h : sys.ReachableVia C s) (es : List ε)
    (p : σ → Bool) (passed : (sys.runChecked check s es).any p = true) : ∃ t, sys.ReachableVia C t ∧ p t = true := by
  induction es generalizing s with
  | nil => exact ⟨s, h, passed⟩
  | cons e es ih =>
    simp only [runChecked] at passed
    split at passed
    · rename_i checked
      cases taken : sys.step s e with
      | none => simp [taken] at passed
      | some s' =>
        simp only [taken, bind_some] at passed
        exact ih (.step h (sound s e checked) taken) passed
    · cases passed

/-- Where `P` survives a step exactly when the step meets `C`, it holds in every
state of a run exactly when every step of the run meets `C`. The invariant `I`
carries what is true of all states that are reached while `P` holds. -/
theorem allStates_iff_allSteps {I : σ → Prop} (kept : ∀ s e s', I s → P s → P s' → sys.step s e = some s' → I s')
    (exact_step : ∀ s e s', I s → P s → sys.step s e = some s' → (P s' ↔ C s e))
    (holds : P s) (inv : I s) (es : List ε) : sys.AllStates P s es ↔ sys.AllSteps C s es := by
  induction es generalizing s with
  | nil => exact ⟨fun _ => trivial, fun _ => holds⟩
  | cons e es ih =>
    simp only [AllStates, AllSteps]
    constructor
    · rintro ⟨_, rest⟩ s' taken
      have next : P s' := by
        cases es with
        | nil => exact rest s' taken
        | cons _ _ => exact (rest s' taken).1
      have inv' := kept s e s' inv holds next taken
      exact ⟨(exact_step s e s' inv holds taken).mp next, (ih next inv').mp (rest s' taken)⟩
    · intro meets
      refine ⟨holds, fun s' taken => ?_⟩
      obtain ⟨here, rest⟩ := meets s' taken
      have next := (exact_step s e s' inv holds taken).mpr here
      exact (ih next (kept s e s' inv holds next taken)).mpr rest

end TransitionSystem

end N8n
