/-! Runs of a labelled transition relation. A run is kept as the list of
the steps it takes, each with the state before and after, so that a
property can speak of every state a run visits and of every step in it.
`Trace.invariant` packages the induction of every safety proof;
`Trace.guarded` is its converse, for guards that are necessary. -/
namespace Yaos.Lib

structure Taken (σ ι : Type) where
  pre : σ
  label : ι
  post : σ

/-- The runs of `Step`, oldest step first. -/
inductive Trace {σ ι : Type} (Step : σ → ι → σ → Prop) :
    σ → List (Taken σ ι) → σ → Prop where
  | done (s : σ) : Trace Step s [] s
  | step {s t u : σ} {a : ι} {tr : List (Taken σ ι)} :
      Step s a t → Trace Step t tr u → Trace Step s (⟨s, a, t⟩ :: tr) u

variable {σ ι : Type} {Step : σ → ι → σ → Prop}

theorem Trace.taken {s t : σ} {tr : List (Taken σ ι)} (h : Trace Step s tr t) :
    ∀ x ∈ tr, Step x.pre x.label x.post := by
  induction h with
  | done s => simp
  | step hs _ ih =>
    intro x hx
    rcases List.mem_cons.mp hx with rfl | hx
    · exact hs
    · exact ih x hx

theorem Trace.split {s t : σ} {a b : List (Taken σ ι)} (h : Trace Step s (a ++ b) t) :
    ∃ u, Trace Step s a u ∧ Trace Step u b t := by
  induction a generalizing s with
  | nil => exact ⟨s, .done s, h⟩
  | cons x a ih =>
    cases h with
    | step hs h =>
      obtain ⟨u, ha, hb⟩ := ih h
      exact ⟨u, .step hs ha, hb⟩

/-- What one step keeps, a run keeps: if `Inv` holds at the start and every
step that meets its guard keeps it, it holds in every state visited. -/
theorem Trace.invariant {s t : σ} {tr : List (Taken σ ι)} (h : Trace Step s tr t)
    (Inv : σ → Prop) (Guard : σ → ι → Prop)
    (keep : ∀ {s a t}, Inv s → Guard s a → Step s a t → Inv t) (h₀ : Inv s)
    (hg : ∀ x ∈ tr, Guard x.pre x.label) :
    Inv t ∧ ∀ x ∈ tr, Inv x.pre ∧ Inv x.post := by
  induction h with
  | done s => exact ⟨h₀, by simp⟩
  | step hs _ ih =>
    have h₁ := keep h₀ (hg _ List.mem_cons_self) hs
    obtain ⟨hend, hall⟩ := ih h₁ (fun x hx => hg x (by simp [hx]))
    refine ⟨hend, fun x hx => ?_⟩
    rcases List.mem_cons.mp hx with rfl | hx
    · exact ⟨h₀, h₁⟩
    · exact hall x hx

theorem Trace.always {s t : σ} {tr : List (Taken σ ι)} (h : Trace Step s tr t)
    (Inv : σ → Prop) (keep : ∀ {s a t}, Inv s → Step s a t → Inv t) (h₀ : Inv s) :
    Inv t ∧ ∀ x ∈ tr, Inv x.pre ∧ Inv x.post :=
  h.invariant Inv (fun _ _ => True) (fun hi _ hs => keep hi hs) h₀ (fun _ _ => trivial)

/-- The converse: if a good step must have met its guard and keeps `Inv`, a
run of good steps met the guard at every step. -/
theorem Trace.guarded {s t : σ} {tr : List (Taken σ ι)} (h : Trace Step s tr t)
    (Inv : σ → Prop) (Good : σ → ι → σ → Prop) (Guard : σ → ι → Prop)
    (need : ∀ {s a t}, Inv s → Step s a t → Good s a t → Guard s a ∧ Inv t) (h₀ : Inv s)
    (hall : ∀ x ∈ tr, Good x.pre x.label x.post) : ∀ x ∈ tr, Guard x.pre x.label := by
  induction h with
  | done s => simp
  | step hs _ ih =>
    obtain ⟨hg, h₁⟩ := need h₀ hs (hall _ List.mem_cons_self)
    intro x hx
    rcases List.mem_cons.mp hx with rfl | hx
    · exact hg
    · exact ih h₁ (fun y hy => hall y (by simp [hy])) x hx

end Yaos.Lib
