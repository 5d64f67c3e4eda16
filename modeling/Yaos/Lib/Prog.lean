/-! Programs that keep their state when they stop: a call returns a value or
stops for a reason, and leaves a state behind in both cases. `Ends` says what
holds of a run from a given state, at a return and at a stop; its rules follow
the program. A call whose result is known by an equation is passed with
`bind_of_eq`. -/
namespace Yaos.Lib

/-- A program over states `σ` that stops with `ε`. -/
def Prog (ε σ α : Type) : Type := σ → Except ε α × σ

namespace Prog

variable {ε σ α β : Type}

instance : Monad (Prog ε σ) where
  pure a := fun s => (.ok a, s)
  bind m f := fun s =>
    match m s with
    | (.ok a, t) => f a t
    | (.error e, t) => (.error e, t)

def stop (e : ε) : Prog ε σ α := fun s => (.error e, s)

def gets (f : σ → α) : Prog ε σ α := fun s => (.ok (f s), s)

def modify (f : σ → σ) : Prog ε σ Unit := fun s => (.ok (), f s)

variable {m : Prog ε σ α} {f : α → Prog ε σ β} {s t : σ} {a : α} {e : ε}

@[simp] theorem pure_apply (a : α) (s : σ) : (pure a : Prog ε σ α) s = (.ok a, s) := rfl

theorem bind_of_eq (h : m s = (.ok a, t)) : (m >>= f) s = f a t := by
  show (match m s with | (.ok a, t) => f a t | (.error e, t) => (.error e, t)) = _
  rw [h]

theorem bind_of_error (h : m s = (.error e, t)) : (m >>= f) s = (.error e, t) := by
  show (match m s with | (.ok a, t) => f a t | (.error e, t) => (.error e, t)) = _
  rw [h]

@[simp] theorem gets_bind (g : σ → α) (s : σ) : ((gets g : Prog ε σ α) >>= f) s = f (g s) s := rfl

@[simp] theorem modify_bind (g : σ → σ) (f : Unit → Prog ε σ β) (s : σ) :
    ((modify g : Prog ε σ Unit) >>= f) s = f () (g s) := rfl

/-! ## How a run ends -/

/-- From `s` the program returns with `Q` or stops with `E`. -/
def Ends (m : Prog ε σ α) (s : σ) (Q : α → σ → Prop) (E : ε → σ → Prop) : Prop :=
  match m s with
  | (.ok a, t) => Q a t
  | (.error e, t) => E e t

variable {Q Q' : α → σ → Prop} {R : β → σ → Prop} {E E' : ε → σ → Prop}

theorem Ends.of_eq (h : m s = (.ok a, t)) (hQ : Q a t) : Ends m s Q E := by
  rw [Ends, h]
  exact hQ

@[simp] theorem ends_pure : Ends (Pure.pure a : Prog ε σ α) s Q E ↔ Q a s := Iff.rfl

@[simp] theorem ends_stop : Ends (Prog.stop e : Prog ε σ α) s Q E ↔ E e s := Iff.rfl

@[simp] theorem ends_pure_bind : Ends ((Pure.pure a : Prog ε σ α) >>= f) s R E ↔ Ends (f a) s R E :=
  Iff.rfl

@[simp] theorem ends_gets_bind {g : σ → α} :
    Ends ((gets g : Prog ε σ α) >>= f) s R E ↔ Ends (f (g s)) s R E := Iff.rfl

@[simp] theorem ends_modify_bind {g : σ → σ} {f : Unit → Prog ε σ β} :
    Ends ((modify g : Prog ε σ Unit) >>= f) s R E ↔ Ends (f ()) (g s) R E := Iff.rfl

theorem Ends.mono (h : Ends m s Q E) (hQ : ∀ a t, Q a t → Q' a t) (hE : ∀ e t, E e t → E' e t) :
    Ends m s Q' E' := by
  rw [Ends] at h ⊢
  split at h
  · exact hQ _ _ h
  · exact hE _ _ h

theorem Ends.and (h : Ends m s Q E) (h' : Ends m s Q' E') :
    Ends m s (fun a t => Q a t ∧ Q' a t) (fun e t => E e t ∧ E' e t) := by
  rw [Ends] at h h' ⊢
  split at h
  next heq =>
    rw [heq] at h'
    exact ⟨h, h'⟩
  next heq =>
    rw [heq] at h'
    exact ⟨h, h'⟩

/-- What holds of a run if and only if `C` does, however it ends. -/
theorem Ends.iff {C : Prop} (h : Ends m s (fun a t => Q a t ↔ C) fun e t => E e t ↔ C) :
    Ends m s Q E ↔ C := by
  rw [Ends] at h ⊢
  split at h
  · exact h
  · exact h

theorem ends_bind : Ends (m >>= f) s R E ↔ Ends m s (fun a t => Ends (f a) t R E) E := by
  unfold Ends
  rcases heq : m s with ⟨_ | _, _⟩
  · rw [bind_of_error heq]
  · rw [bind_of_eq heq]

theorem Ends.bind (h : Ends m s Q E) (hf : ∀ a t, Q a t → Ends (f a) t R E) :
    Ends (m >>= f) s R E := by
  rw [Ends] at h
  split at h
  next a t heq =>
    have hnext := hf a t h
    rw [Ends] at hnext ⊢
    rw [bind_of_eq heq]
    exact hnext
  next e t heq =>
    rw [Ends, bind_of_error heq]
    exact h

theorem Ends.bind_eq (h : m s = (.ok a, t)) (hf : Ends (f a) t R E) : Ends (m >>= f) s R E := by
  rw [Ends] at hf ⊢
  rw [bind_of_eq h]
  exact hf

theorem Ends.bind_error (h : m s = (.error e, t)) (hE : E e t) : Ends (m >>= f) s R E := by
  rw [Ends, bind_of_error h]
  exact hE

theorem Ends.exists_eq (h : Ends m s Q fun _ _ => False) : ∃ a t, m s = (.ok a, t) ∧ Q a t := by
  rw [Ends] at h
  split at h
  next a t heq => exact ⟨a, t, heq, h⟩
  next => exact h.elim

theorem Ends.returned (h : Ends m s Q E) (heq : m s = (.ok a, t)) : Q a t := by
  rw [Ends, heq] at h
  exact h

end Prog

end Yaos.Lib
