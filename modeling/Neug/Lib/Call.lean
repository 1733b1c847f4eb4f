import Mathlib

/-! Calls on a mutable object. A call may return a value, may throw and keep what it has done
to the object so far, or may have no defined result (memory read out of range, an assertion
that fails). -/
namespace Neug.Lib

/-- A call on an object of type `σ` that throws values of type `ε`. -/
def Call (σ ε α : Type) : Type := σ → Option (Except ε α × σ)

namespace Call

variable {σ ε α β : Type}

instance : Monad (Call σ ε) where
  pure a := fun s => some (.ok a, s)
  bind m f := fun s =>
    match m s with
    | none => none
    | some (.ok a, s') => f a s'
    | some (.error e, s') => some (.error e, s')

def undefined : Call σ ε α := fun _ => none
def raise (e : ε) : Call σ ε α := fun s => some (.error e, s)
def read : Call σ ε σ := fun s => some (.ok s, s)
def modify (f : σ → σ) : Call σ ε Unit := fun s => some (.ok (), f s)
def defined (o : Option α) : Call σ ε α := fun s => o.map fun a => (.ok a, s)

def update (f : σ → Except ε (α × σ)) : Call σ ε α := fun s =>
  match f s with
  | .ok (a, s') => some (.ok a, s')
  | .error e => some (.error e, s)

def after (m : Call σ ε α) (s : σ) : Option σ := (m s).map Prod.snd

theorem after_eq_some {m : Call σ ε α} {s s' : σ} (h : m.after s = some s') :
    ∃ r, m s = some (r, s') := by
  obtain ⟨⟨r, t⟩, hm, rfl⟩ := Option.map_eq_some_iff.mp h
  exact ⟨r, hm⟩

theorem bind_apply (m : Call σ ε α) (f : α → Call σ ε β) (s : σ) : (m >>= f) s = match m s with
      | none => none
      | some (.ok a, s') => f a s'
      | some (.error e, s') => some (.error e, s') := rfl

@[simp] theorem pure_apply (a : α) (s : σ) : (pure a : Call σ ε α) s = some (.ok a, s) := rfl

@[simp] theorem read_bind (f : σ → Call σ ε β) (s : σ) : (read >>= f) s = f s s := rfl

@[simp] theorem modify_apply (g : σ → σ) (s : σ) :
    (modify g : Call σ ε Unit) s = some (.ok (), g s) := rfl

@[simp] theorem modify_bind (g : σ → σ) (f : Unit → Call σ ε β) (s : σ) :
    (modify g >>= f) s = f () (g s) := rfl

@[simp] theorem raise_apply (e : ε) (s : σ) : (raise e : Call σ ε α) s = some (.error e, s) := rfl

@[simp] theorem undefined_apply (s : σ) : (undefined : Call σ ε α) s = none := rfl

theorem update_of_ok {f : σ → Except ε (α × σ)} {s s' : σ} {a : α} (h : f s = .ok (a, s')) :
    update f s = some (.ok a, s') := by
  unfold update
  rw [h]

theorem defined_bind_eq_some {o : Option α} {f : α → Call σ ε β} {s : σ} {x : Except ε β × σ} :
    (defined o >>= f) s = some x ↔ ∃ a, o = some a ∧ f a s = some x := by
  cases o with
  | none => simp [bind_apply, defined]
  | some a => simp [bind_apply, defined]

/-- A sequence either stops where its first part threw or goes on from there. -/
theorem bind_cases {m : Call σ ε α} {f : α → Call σ ε β} {s s' : σ} {r : Except ε β}
    (h : (m >>= f) s = some (r, s')) : (∃ a t, m s = some (.ok a, t) ∧ f a t = some (r, s')) ∨
      ∃ e, m s = some (.error e, s') ∧ r = .error e := by
  rw [bind_apply] at h
  cases hm : m s with
  | none => simp [hm] at h
  | some p =>
    obtain ⟨x, t⟩ := p
    cases x with
    | ok a => exact .inl ⟨a, t, rfl, by simpa [hm] using h⟩
    | error e =>
      simp only [hm] at h
      cases h
      exact .inr ⟨e, rfl, rfl⟩

/-- `m` keeps `I` whether it returns or throws. -/
def Keeps (I : σ → Prop) (m : Call σ ε α) : Prop := ∀ s, I s → ∀ r s', m s = some (r, s') → I s'

variable {I : σ → Prop} {m : Call σ ε α} {f : α → Call σ ε β}

theorem Keeps.run (hm : Keeps I m) {s s' : σ} {r : Except ε α} (h : m s = some (r, s'))
    (hs : I s) : I s' :=
  hm s hs r s' h

theorem Keeps.bind (hm : Keeps I m) (hf : ∀ a, Keeps I (f a)) : Keeps I (m >>= f) := by
  intro s hs r s' h
  rcases bind_cases h with ⟨a, t, hma, hfa⟩ | ⟨e, hme, -⟩
  · exact hf a t (hm s hs _ _ hma) r s' hfa
  · exact hm s hs _ _ hme

end Call

/-- Runs the undo records of calls that are not rolled back in place. -/
def undoAll {σ ε υ : Type} (undo : υ → Call σ ε Unit) : List υ → Call σ ε Unit
  | [] => pure ()
  | u :: us => do
    undo u
    undoAll undo us

/-- The elements of `l` are at the front of `l'` up to `same`, the rest of `l'` is gone. -/
inductive Grown {α : Type} (same : α → α → Prop) (gone : α → Prop) : List α → List α → Prop
  | nil {l' : List α} (h : ∀ b ∈ l', gone b) : Grown same gone [] l'
  | cons {a b : α} {l l' : List α} (hab : same a b) (h : Grown same gone l l') :
    Grown same gone (a :: l) (b :: l')

end Neug.Lib
