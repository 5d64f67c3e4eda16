/-! Outcomes of kernel code. A call either returns a value or never
returns; the ways of not returning are kept apart, because some
properties are about one of them only (an assertion that never fires, a
search that never spins). -/
namespace Yaos.Lib

inductive Stop where
  /-- a failed assertion: the debug build loops forever there -/
  | assert
  /-- an explicit panic: interrupts off and halted -/
  | panic
  /-- an access outside the memory the code owns -/
  | fault
  /-- a loop that has not ended within the given fuel -/
  | spin
  deriving DecidableEq, Repr

/-- The result of a call: a value, or the reason it does not return. -/
abbrev Outcome (α : Type) := Except Stop α

def check (c : Bool) : Outcome Unit :=
  if c then .ok () else .error .assert

@[simp] theorem check_eq_ok {c : Bool} {u : Unit} : check c = .ok u ↔ c = true := by
  cases c <;> simp [check]

theorem bind_eq_ok {α β : Type} {x : Outcome α} {f : α → Outcome β} {r : β} :
    (x >>= f) = .ok r ↔ ∃ a, x = .ok a ∧ f a = .ok r := by
  cases x with
  | error e => simp [Bind.bind, Except.bind]
  | ok a => simp [Bind.bind, Except.bind]

@[simp] theorem ok_bind {α β : Type} (a : α) (f : α → Outcome β) :
    ((Except.ok a : Outcome α) >>= f) = f a := rfl

@[simp] theorem error_bind {α β : Type} (e : Stop) (f : α → Outcome β) :
    ((Except.error e : Outcome α) >>= f) = .error e := rfl

theorem exists_ite_ok {α : Type} {p : Prop} [Decidable p] {x y : Outcome α} (hx : ∃ a, x = .ok a)
    (hy : ∃ a, y = .ok a) : ∃ a, (if p then x else y) = .ok a := by
  split
  · exact hx
  · exact hy

theorem exists_eq_ok {α β : Type} {x : Outcome α} {f : α → β} {b : β}
    (h : x.toOption.map f = some b) : ∃ a, x = .ok a ∧ f a = b := by
  cases x with
  | error e => cases h
  | ok a => exact ⟨a, rfl, Option.some.inj h⟩

/-- A loop over a list returns exactly if every round does, where a round's
outcome depends on its element alone. -/
theorem foldlM_ok_iff {α σ : Type} {f : σ → α → Outcome σ} {P : σ → Prop} {Q : α → Prop}
    {l : List α} {s : σ} (hround : ∀ s, ∀ x ∈ l, P s → ((∃ t, f s x = .ok t) ↔ Q x) ∧
      ∀ t, f s x = .ok t → P t) (hs : P s) :
    (∃ t, l.foldlM f s = .ok t) ↔ ∀ x ∈ l, Q x := by
  induction l generalizing s with
  | nil => exact iff_of_true ⟨s, rfl⟩ (by simp)
  | cons x l ih =>
    obtain ⟨hx, hkeep⟩ := hround s x List.mem_cons_self hs
    have hrest : ∀ s, ∀ y ∈ l, P s → ((∃ t, f s y = .ok t) ↔ Q y) ∧ ∀ t, f s y = .ok t → P t :=
      fun s y hy => hround s y (List.mem_cons_of_mem x hy)
    simp only [List.foldlM_cons, bind_eq_ok]
    constructor
    · rintro ⟨t, u, hu, ht⟩ y hy
      rcases List.mem_cons.mp hy with rfl | hy
      · exact hx.mp ⟨u, hu⟩
      · exact (ih hrest (hkeep u hu)).mp ⟨t, ht⟩ y hy
    · intro hall
      obtain ⟨u, hu⟩ := hx.mpr (hall x List.mem_cons_self)
      obtain ⟨t, ht⟩ := (ih hrest (hkeep u hu)).mpr fun y hy => hall y (List.mem_cons_of_mem x hy)
      exact ⟨t, u, hu, ht⟩

/-- More entries for a table of `m`; one too many is written behind it. -/
def pushAll {α : Type} (m : Nat) (t xs : List α) : Outcome (List α) :=
  if (t ++ xs).length ≤ m then .ok (t ++ xs) else .error .fault

theorem foldlM_pushAll {α ι : Type} {m : Nat} {step : List α → ι → Outcome (List α)} {g : ι → List α}
    {l : List ι} {t : List α} (hstep : ∀ t, ∀ x ∈ l, t.length ≤ m → step t x = pushAll m t (g x))
    (ht : t.length ≤ m) : l.foldlM step t = pushAll m t (l.flatMap g) := by
  induction l generalizing t with
  | nil =>
    rw [List.flatMap_nil, pushAll, List.append_nil, if_pos ht]
    rfl
  | cons x l ih =>
    rw [List.foldlM_cons, hstep t x List.mem_cons_self ht, List.flatMap_cons, pushAll]
    split
    next hfits =>
      rw [ok_bind, ih (fun t y hy => hstep t y (List.mem_cons_of_mem x hy)) hfits, pushAll, pushAll,
        List.append_assoc]
    next hfull =>
      rw [error_bind, pushAll, if_neg]
      simp only [List.length_append] at hfull ⊢
      omega

end Yaos.Lib
