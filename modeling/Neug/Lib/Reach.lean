import Mathlib

/-! Guarded transition systems. A run starts in an initial state, and every step it
takes satisfies a guard on the state before the step. The guard is where a result
about all runs keeps the runs it speaks of. -/
namespace Neug.Lib

variable {σ ι : Type*}

/-- States reached by runs of `step` from `init` whose steps all satisfy `ok`. -/
inductive Reach (init : σ → Prop) (step : σ → ι → Option σ) (ok : σ → ι → Prop) : σ → Prop where
  | init {s : σ} : init s → Reach init step ok s
  | step {s s' : σ} (l : ι) : Reach init step ok s → ok s l → step s l = some s' →
      Reach init step ok s'

def anyStep (_ : σ) (_ : ι) : Prop := True

variable {init : σ → Prop} {step : σ → ι → Option σ} {ok ok' : σ → ι → Prop}

/-- The invariant rule. The step obligation may use any invariant proved before. -/
theorem Reach.invariant {I J : σ → Prop} (hI : ∀ s, Reach init step ok s → I s)
    (hinit : ∀ s, init s → J s) (hstep : ∀ s l s', I s → J s → ok s l → step s l = some s' → J s')
    {s : σ} (h : Reach init step ok s) : J s := by
  induction h with
  | init h => exact hinit _ h
  | step l hr hok hs ih => exact hstep _ l _ (hI _ hr) ih hok hs

/-- A weaker guard reaches no less; the comparison may use an invariant. -/
theorem Reach.mono {I : σ → Prop} (hI : ∀ s, Reach init step ok s → I s) (hok : ∀ s l, I s → ok s l → ok' s l)
    {s : σ} (h : Reach init step ok s) : Reach init step ok' s := by
  induction h with
  | init h => exact .init h
  | step l hr hl hs ih => exact .step l ih (hok _ _ (hI _ hr) hl) hs

def execute (step : σ → ι → Option σ) : List ι → σ → Option σ
  | [], s => some s
  | l :: ls, s => (step s l).bind (execute step ls)

theorem execute_append (ls ls' : List ι) (s : σ) :
    execute step (ls ++ ls') s = (execute step ls s).bind (execute step ls') := by
  induction ls generalizing s with
  | nil => rfl
  | cons l ls ih =>
    simp only [List.cons_append, execute, Option.bind_assoc]
    congr 1
    funext t
    exact ih t

def guarded (ok : σ → ι → Prop) [∀ s l, Decidable (ok s l)] (step : σ → ι → Option σ) (s : σ)
    (l : ι) : Option σ :=
  if ok s l then step s l else none

instance : ∀ (s : σ) (l : ι), Decidable (anyStep s l) := fun _ _ => .isTrue trivial

/-- A schedule that runs to the end within the guard reaches its last state. -/
theorem Reach.of_execute [∀ s l, Decidable (ok s l)] {ls : List ι} {s s' : σ}
    (h : Reach init step ok s) (hrun : execute (guarded ok step) ls s = some s') :
    Reach init step ok s' := by
  induction ls generalizing s with
  | nil => exact Option.some.inj hrun ▸ h
  | cons l ls ih =>
    obtain ⟨t, ht, hrest⟩ := Option.bind_eq_some_iff.mp hrun
    unfold guarded at ht
    split_ifs at ht with hl
    exact ih (.step l h hl ht) hrest

/-- A test that succeeds at the end of a schedule succeeds in a reachable state. -/
theorem Reach.exists_of_execute [∀ s l, Decidable (ok s l)] {s : σ} (ls : List ι) (P : σ → Prop)
    [∀ s, Decidable (P s)] (h : Reach init step ok s)
    (hrun : (execute (guarded ok step) ls s).any (fun s' => P s') = true) :
    ∃ s', Reach init step ok s' ∧ P s' := by
  cases hs' : execute (guarded ok step) ls s with
  | none => simp [hs'] at hrun
  | some s' => exact ⟨s', h.of_execute hs', by simpa [hs'] using hrun⟩

end Neug.Lib
