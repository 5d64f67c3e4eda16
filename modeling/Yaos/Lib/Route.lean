import Mathlib.Logic.Basic

/-! Routes in a graph whose edges have names. A route follows a list of names
from a node and fails where a name leads nowhere. `lookups` are the edges it
asks for, each with the node where it does. What two graphs say about a route
depends on these only: if they agree on them, the routes agree; a relation that
holds along them holds at the end; and a route fails in the second graph if one
of its edges is missing there. -/
namespace Yaos.Lib

variable {ν κ : Type}

def route (look : ν → κ → Option ν) : ν → List κ → Option ν
  | v, [] => some v
  | v, k :: l => (look v k).bind fun w => route look w l

def lookups (look : ν → κ → Option ν) : ν → List κ → List (ν × κ)
  | _, [] => []
  | v, k :: l => (v, k) :: (look v k).elim [] fun w => lookups look w l

variable {look look' : ν → κ → Option ν} {v v' w : ν} {k : κ} {l l' : List κ}

theorem route_cons (hk : look v k = some w) : route look v (k :: l) = route look w l := by
  rw [route, hk, Option.bind_some]

theorem lookups_cons (hk : look v k = some w) :
    lookups look v (k :: l) = (v, k) :: lookups look w l := by
  rw [lookups, hk, Option.elim_some]

theorem route_append : route look v (l ++ l') = (route look v l).bind fun w => route look w l' := by
  induction l generalizing v with
  | nil => rfl
  | cons k l ih =>
    rw [List.cons_append, route, route]
    cases look v k with
    | none => rfl
    | some w => exact ih

theorem mem_lookups_append {x : ν × κ} : x ∈ lookups look v (l ++ l') ↔
    x ∈ lookups look v l ∨ ∃ w, route look v l = some w ∧ x ∈ lookups look w l' := by
  induction l generalizing v with
  | nil => simp [lookups, route]
  | cons k l ih =>
    rw [List.cons_append, lookups, lookups, route, List.mem_cons, List.mem_cons, or_assoc]
    cases look v k with
    | none => simp
    | some w => rw [Option.elim_some, Option.elim_some, Option.bind_some, ih]

theorem mem_of_mem_lookups {x : ν × κ} (hx : x ∈ lookups look v l) : x.2 ∈ l := by
  induction l generalizing v with
  | nil => cases hx
  | cons k l ih =>
    rw [lookups, List.mem_cons] at hx
    rcases hx with rfl | hx
    · exact List.mem_cons_self
    · cases hk : look v k with
      | none =>
        rw [hk] at hx
        cases hx
      | some w =>
        rw [hk] at hx
        exact List.mem_cons_of_mem _ (ih hx)

theorem route_congr (h : ∀ x ∈ lookups look v l, look' x.1 x.2 = look x.1 x.2) :
    route look' v l = route look v l := by
  induction l generalizing v with
  | nil => rfl
  | cons k l ih =>
    rw [lookups, List.forall_mem_cons] at h
    rw [route, route, h.1]
    cases hk : look v k with
    | none => rfl
    | some w =>
      rw [hk] at h
      exact ih h.2

theorem route_inv (I : ν → Prop) (hv : I v)
    (h : ∀ x ∈ lookups look v l, I x.1 → ∀ w, look x.1 x.2 = some w → I w) :
    (∀ x ∈ lookups look v l, I x.1) ∧ ∀ w, route look v l = some w → I w := by
  induction l generalizing v with
  | nil =>
    constructor
    · intro x hx
      cases hx
    · intro w hw
      cases hw
      exact hv
  | cons k l ih =>
    rw [lookups, List.forall_mem_cons] at h
    rw [lookups, List.forall_mem_cons, route]
    cases hk : look v k with
    | none => simp [hv]
    | some w =>
      rw [hk] at h
      obtain ⟨hall, hend⟩ := ih (h.1 hv w rfl) h.2
      exact ⟨⟨hv, hall⟩, hend⟩

theorem route_sim (R : ν → ν → Prop) (hv : R v v')
    (h : ∀ x ∈ lookups look v l, ∀ y, R x.1 y → ∀ w, look x.1 x.2 = some w →
      ∃ w', look' y x.2 = some w' ∧ R w w') (hl : route look v l = some w) :
    ∃ w', route look' v' l = some w' ∧ R w w' := by
  induction l generalizing v v' with
  | nil =>
    cases hl
    exact ⟨v', rfl, hv⟩
  | cons k l ih =>
    rw [route] at hl
    obtain ⟨x, hk, hl⟩ := Option.bind_eq_some_iff.mp hl
    rw [lookups_cons hk, List.forall_mem_cons] at h
    obtain ⟨x', hk', hx⟩ := h.1 v' hv x hk
    obtain ⟨w', hl', hw⟩ := ih hx h.2 hl
    exact ⟨w', by rw [route_cons hk', hl'], hw⟩

/-- Two routes in step until the first asks for an edge that the second graph
does not have. -/
theorem route_blocked (R : ν → ν → Prop) (B : ν × κ → Prop) (hv : R v v')
    (hstep : ∀ x ∈ lookups look v l, ¬ B x → ∀ y, R x.1 y → ∀ w, look x.1 x.2 = some w →
      ∃ w', look' y x.2 = some w' ∧ R w w')
    (hblock : ∀ x ∈ lookups look v l, B x → ∀ y, R x.1 y → look' y x.2 = none)
    (hb : ∃ x ∈ lookups look v l, B x) : route look' v' l = none := by
  induction l generalizing v v' with
  | nil =>
    obtain ⟨x, hx, -⟩ := hb
    cases hx
  | cons k l ih =>
    rw [lookups, List.forall_mem_cons] at hstep hblock
    by_cases hfirst : B (v, k)
    · have hnone := hblock.1 hfirst v' hv
      rw [route, hnone, Option.bind_none]
    · obtain ⟨x, hx, hBx⟩ := hb
      rw [lookups] at hx
      have hx := (List.mem_cons.mp hx).resolve_left fun heq => hfirst (heq ▸ hBx)
      cases hk : look v k with
      | none =>
        rw [hk] at hx
        cases hx
      | some w =>
        rw [hk] at hx hstep hblock
        obtain ⟨w', hk', hw⟩ := hstep.1 hfirst v' hv w rfl
        rw [route_cons hk']
        exact ih hw hstep.2 hblock.2 ⟨x, hx, hBx⟩

end Yaos.Lib
