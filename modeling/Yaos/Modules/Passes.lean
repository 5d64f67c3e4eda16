import Mathlib.Data.List.Nodup
import Yaos.Modules.Model

/-!
# Modules that wait for each other

A pass loads every module whose dependencies were loaded before it, so after
`k` passes every module with a chain of at most `k` is loaded, in whatever order
the linker has put them. The flag `found` ends the passes early only if all are.
-/

namespace Yaos.Modules

open Yaos.Lib Function

variable {η : Type}

/-! ## Dependencies -/

structure Decl (η : Type) where
  name : String
  handler : η
  arg : Nat

/-- The modules of the table, without the records that are skipped. -/
def declared (table : List (ModuleData η)) : List (Decl η) :=
  table.filterMap fun p =>
    match p.name, p.evhand with
    | some name, some evhand => some ⟨name, evhand, p.priv⟩
    | _, _ => none

def Module.decl (m : Module η) : Decl η := ⟨m.name, m.handler, m.arg⟩

/-- The modules that an event is for: on the other processors, the loaded ones. -/
def State.decl (s : State η) : Event → Nat → Option (Decl η)
  | .bpLoad, i => (s.all i).map Module.decl
  | .apLoad, i => ((s.all i).filter fun m => m.status = .loaded).map Module.decl

def State.Loaded (s : State η) (ev : Event) (dep : String) : Prop :=
  ∃ i, i < maxModuleNr ∧ s.status ev i = .loaded ∧ (s.decl ev i).map (·.name) = some dep

instance (s : State η) (ev : Event) (dep : String) : Decidable (s.Loaded ev dep) :=
  inferInstanceAs (Decidable (∃ i, i < maxModuleNr ∧ _ ∧ _))

variable (deps : η → Nat → List String) (M : Decl η → Prop)

def State.Ready (s : State η) (ev : Event) (e : Decl η) : Prop :=
  ∀ dep ∈ deps e.handler e.arg, s.Loaded ev dep

/-- The handlers wait for what they depend on, and for nothing else. -/
structure Follows (run : Handlers η) (ev : Event) : Prop where
  ok : ∀ s i (e : Decl η), s.Ready deps ev e → run e.handler s i ev e.arg = modErrOk
  wait : ∀ s i (e : Decl η), ¬ s.Ready deps ev e → run e.handler s i ev e.arg = modErrNextloop

/-- No chain of dependencies from the module on has more than `n` modules, all
of them in `M`. -/
def Within : Nat → Decl η → Prop
  | 0, _ => False
  | n + 1, e => ∀ dep ∈ deps e.handler e.arg, ∃ e', M e' ∧ e'.name = dep ∧ Within n e'

/-- All chains end: none leads to a module that is not in `M`, or in a circle. -/
def Satisfiable (e : Decl η) : Prop := ∃ n, Within deps M n e

variable {deps M} {run : Handlers η} {ev : Event} {s t u : State η} {i k n : Nat} {e : Decl η}
  {dep : String}

theorem Within.succ (h : Within deps M n e) : Within deps M (n + 1) e := by
  induction n generalizing e with
  | zero => exact h.elim
  | succ n ih =>
    intro dep hdep
    obtain ⟨e', hmem, hname, hwithin⟩ := h dep hdep
    exact ⟨e', hmem, hname, ih hwithin⟩

theorem Within.mono {m : Nat} (h : Within deps M n e) (hnm : n ≤ m) : Within deps M m e := by
  induction hnm with
  | refl => exact h
  | step _ ih => exact ih.succ

theorem Satisfiable.of_deps
    (h : ∀ dep ∈ deps e.handler e.arg, ∃ e', M e' ∧ e'.name = dep ∧ Satisfiable deps M e') :
    Satisfiable deps M e := by
  -- the longest of finitely many chains
  have hbound : ∀ l : List String, (∀ dep ∈ l, ∃ e', M e' ∧ e'.name = dep ∧ Satisfiable deps M e') →
      ∃ n, ∀ dep ∈ l, ∃ e', M e' ∧ e'.name = dep ∧ Within deps M n e' := by
    intro l
    induction l with
    | nil => exact fun _ => ⟨0, by simp⟩
    | cons dep l ih =>
      intro hall
      obtain ⟨n, hn⟩ := ih fun dep' hmem => hall dep' (List.mem_cons_of_mem _ hmem)
      obtain ⟨e', hmem, hname, m, hm⟩ := hall dep List.mem_cons_self
      refine ⟨max n m, fun dep' hdep' => ?_⟩
      rcases List.mem_cons.mp hdep' with rfl | hdep'
      · exact ⟨e', hmem, hname, hm.mono (Nat.le_max_right n m)⟩
      · obtain ⟨e'', hmem', hname', hn'⟩ := hn dep' hdep'
        exact ⟨e'', hmem', hname', hn'.mono (Nat.le_max_left n m)⟩
  obtain ⟨n, hn⟩ := hbound _ h
  exact ⟨n + 1, hn⟩

/-! ## One call -/

def State.log (s : State η) (i : Nat) (ret : Int) : State η := { s with calls := s.calls ++ [(i, ret)] }

@[simp] theorem decl_log {r : Int} : (s.log i r).decl ev = s.decl ev := by
  cases ev <;> rfl

@[simp] theorem status_log {r : Int} : (s.log i r).status ev = s.status ev := by
  cases ev <;> rfl

@[simp] theorem decl_load : (s.load ev i).decl ev = s.decl ev := by
  cases ev with
  | apLoad => rfl
  | bpLoad =>
    funext j
    by_cases hj : j = i
    · subst hj
      cases hm : s.all j <;> simp [State.decl, State.load, hm, Module.decl]
    · simp [State.decl, State.load, hj]

@[simp] theorem total_load : (s.load ev i).total = s.total := by
  cases ev <;> rfl

@[simp] theorem calls_load : (s.load ev i).calls = s.calls := by
  cases ev <;> rfl

theorem status_load (he : s.decl ev i = some e) (j : Nat) :
    (s.load ev i).status ev j = if j = i then .loaded else s.status ev j := by
  cases ev with
  | apLoad =>
    by_cases hj : j = i
    · simp [State.status, State.load, hj]
    · simp [State.status, State.load, hj]
  | bpLoad =>
    obtain ⟨m, hm, -⟩ := Option.map_eq_some_iff.mp he
    by_cases hj : j = i
    · simp [State.status, State.load, hj, hm]
    · simp [State.status, State.load, hj]

theorem Status.eq_init {x : Status} (h : x ≠ .loaded) : x = .init := by
  cases x with
  | init => rfl
  | loaded => exact absurd rfl h

inductive Visit (deps : η → Nat → List String) (ev : Event) (s : State η) (i : Nat) :
    State η × Bool → Prop where
  | idle : (∀ e, s.decl ev i = some e → s.status ev i = .loaded) → Visit deps ev s i (s, false)
  | ok (e : Decl η) : s.decl ev i = some e → s.status ev i = .init → s.Ready deps ev e →
      Visit deps ev s i ((s.log i modErrOk).load ev i, false)
  | wait (e : Decl η) : s.decl ev i = some e → s.status ev i = .init → ¬ s.Ready deps ev e →
      Visit deps ev s i (s.log i modErrNextloop, true)

theorem decl_of_due {m : Module η} (hdue : s.due ev i = true) (hm : s.all i = some m) :
    s.decl ev i = some m.decl ∧ s.status ev i = .init := by
  cases ev with
  | bpLoad =>
    refine ⟨by simp [State.decl, hm], ?_⟩
    simpa [State.due] using hdue
  | apLoad =>
    obtain ⟨hbp, hap⟩ : s.status .bpLoad i = .loaded ∧ s.status .apLoad i = .init := by
      simpa [State.due] using hdue
    have hloaded : m.status = .loaded := by
      simpa [State.status, hm] using hbp
    refine ⟨?_, hap⟩
    rw [State.decl, hm, Option.filter_some, if_pos (decide_eq_true hloaded)]
    rfl

theorem loaded_of_not_due (hdue : ¬ s.due ev i = true) (he : s.decl ev i = some e) :
    s.status ev i = .loaded := by
  by_contra hnot
  have hinit := Status.eq_init hnot
  cases ev with
  | bpLoad => exact hdue (by simp [State.due, hinit])
  | apLoad =>
    obtain ⟨m, hm, -⟩ := Option.map_eq_some_iff.mp he
    obtain ⟨hm, hloaded⟩ := Option.filter_eq_some_iff.mp hm
    exact hdue (by simp_all [State.due, State.status])

theorem visit_cases (hf : Follows deps run ev) (s : State η) (i : Nat) :
    Visit deps ev s i (visit run ev s i) := by
  rw [visit]
  split
  next hdue =>
    rw [call]
    cases hm : s.all i with
    | none =>
      refine .idle fun e he => ?_
      cases ev <;> simp [State.decl, hm] at he
    | some m =>
      obtain ⟨he, hinit⟩ := decl_of_due hdue hm
      dsimp only
      by_cases hready : s.Ready deps ev m.decl
      · have hret : run m.handler s i ev m.arg = modErrOk := hf.ok s i m.decl hready
        rw [hret, if_pos rfl]
        exact .ok m.decl he hinit hready
      · have hret : run m.handler s i ev m.arg = modErrNextloop := hf.wait s i m.decl hready
        rw [hret, if_neg (by decide)]
        exact .wait m.decl he hinit hready
  next hdue => exact .idle fun e he => loaded_of_not_due hdue he

/-! ## What calls keep -/

structure Grows (ev : Event) (s t : State η) : Prop where
  total : t.total = s.total
  decl : t.decl ev = s.decl ev
  loaded : ∀ i, s.status ev i = .loaded → t.status ev i = .loaded

theorem Grows.refl : Grows ev s s := ⟨rfl, rfl, fun _ h => h⟩

theorem Grows.trans (h : Grows ev s t) (h' : Grows ev t u) : Grows ev s u :=
  ⟨h'.total.trans h.total, h'.decl.trans h.decl, fun i hi => h'.loaded i (h.loaded i hi)⟩

theorem Grows.visit (hf : Follows deps run ev) : Grows ev s (visit run ev s i).1 := by
  have hvisit := visit_cases hf s i
  generalize Modules.visit run ev s i = r at hvisit ⊢
  cases hvisit with
  | idle => exact .refl
  | ok e he =>
    refine ⟨total_load, by rw [decl_load, decl_log], fun j hj => ?_⟩
    rw [status_load (by rwa [decl_log]), status_log, hj]
    exact ite_self _
  | wait => exact ⟨rfl, decl_log, fun j hj => by rwa [status_log]⟩

/-- What holds after any number of calls, over the modules `M`. -/
structure Inv (deps : η → Nat → List String) (M : Decl η → Prop) (ev : Event) (s : State η) : Prop where
  room : ∀ i e, s.decl ev i = some e → i < maxModuleNr
  mem : ∀ i e, s.decl ev i = some e → M e
  sat : ∀ i e, s.decl ev i = some e → s.status ev i = .loaded → Satisfiable deps M e
  called : ∀ c ∈ s.calls, ∃ e, s.decl ev c.1 = some e
  done : ∀ c ∈ s.calls, c.2 = modErrOk → s.status ev c.1 = .loaded
  once : s.calls.Pairwise fun a b => a.2 = modErrOk → b.1 ≠ a.1

theorem Inv.satisfiable (h : Inv deps M ev s) (hready : s.Ready deps ev e) : Satisfiable deps M e := by
  apply Satisfiable.of_deps
  intro dep hdep
  obtain ⟨i, -, hloaded, hname⟩ := hready dep hdep
  obtain ⟨e', he', rfl⟩ := Option.map_eq_some_iff.mp hname
  exact ⟨e', h.mem i e' he', rfl, h.sat i e' he' hloaded⟩

section Call

variable (h : Inv deps M ev s) (he : s.decl ev i = some e) (hinit : s.status ev i = .init) (r : Int)

include h

include he in
theorem Inv.called_log : ∀ c ∈ (s.log i r).calls, ∃ e, s.decl ev c.1 = some e := by
  intro c hc
  rcases List.mem_append.mp hc with hc | hc
  · exact h.called c hc
  · cases List.mem_singleton.mp hc
    exact ⟨e, he⟩

/-- A module that is not loaded has not returned `MOD_ERR_OK`. -/
theorem Inv.once_log (hinit : s.status ev i = .init) :
    (s.log i r).calls.Pairwise fun a b => a.2 = modErrOk → b.1 ≠ a.1 := by
  apply List.pairwise_append.mpr
  refine ⟨h.once, List.pairwise_singleton _ _, fun a ha b hb hok => ?_⟩
  cases List.mem_singleton.mp hb
  rintro rfl
  rw [h.done a ha hok] at hinit
  cases hinit

include he hinit

theorem Inv.waits : Inv deps M ev (s.log i modErrNextloop) where
  room j e' := by
    rw [decl_log]
    exact h.room j e'
  mem j e' := by
    rw [decl_log]
    exact h.mem j e'
  sat j e' := by
    rw [decl_log, status_log]
    exact h.sat j e'
  called := by
    rw [decl_log]
    exact h.called_log he _
  done c hc hok := by
    rw [status_log]
    rcases List.mem_append.mp hc with hc | hc
    · exact h.done c hc hok
    · cases List.mem_singleton.mp hc
      cases hok
  once := h.once_log _ hinit

theorem Inv.loads (hready : s.Ready deps ev e) : Inv deps M ev ((s.log i modErrOk).load ev i) := by
  have hstatus : ∀ j, ((s.log i modErrOk).load ev i).status ev j =
      if j = i then .loaded else s.status ev j := by
    intro j
    rw [status_load (by rwa [decl_log]), status_log]
  refine ⟨?_, ?_, ?_, ?_, ?_, ?_⟩
  · rw [decl_load, decl_log]
    exact h.room
  · rw [decl_load, decl_log]
    exact h.mem
  · intro j e' he' hloaded
    rw [decl_load, decl_log] at he'
    rw [hstatus] at hloaded
    split at hloaded
    next hji =>
      subst hji
      cases he.symm.trans he'
      exact h.satisfiable hready
    next => exact h.sat j e' he' hloaded
  · rw [decl_load, decl_log, calls_load]
    exact h.called_log he _
  · intro c hc hok
    rw [calls_load] at hc
    rw [hstatus]
    split
    next => rfl
    next hci =>
      rcases List.mem_append.mp hc with hc | hc
      · exact h.done c hc hok
      · cases List.mem_singleton.mp hc
        exact absurd rfl hci
  · rw [calls_load]
    exact h.once_log _ hinit

end Call

theorem Inv.visit (h : Inv deps M ev s) (hf : Follows deps run ev) (i : Nat) :
    Inv deps M ev (visit run ev s i).1 := by
  have hvisit := visit_cases hf s i
  generalize Modules.visit run ev s i = r at hvisit ⊢
  cases hvisit with
  | idle => exact h
  | ok e he hinit hready => exact h.loads he hinit hready
  | wait e he hinit => exact h.waits he hinit

def State.count (s : State η) (i : Nat) : Nat := s.calls.countP fun c => c.1 = i

theorem count_log {r : Int} (j : Nat) : (s.log i r).count j = s.count j + if i = j then 1 else 0 := by
  simp [State.count, State.log, List.countP_append, List.countP_singleton]

theorem count_visit (hf : Follows deps run ev) (j : Nat) :
    (visit run ev s i).1.count j ≤ s.count j + if i = j then 1 else 0 := by
  have hvisit := visit_cases hf s i
  generalize visit run ev s i = r at hvisit ⊢
  cases hvisit with
  | idle => exact Nat.le_add_right _ _
  | ok e =>
    show State.count _ j ≤ _
    rw [State.count, calls_load]
    exact Nat.le_of_eq (count_log j)
  | wait e => exact Nat.le_of_eq (count_log j)

/-! ## Passes -/

/-- Modules with a chain of at most `k` are loaded. -/
def Level (deps : η → Nat → List String) (M : Decl η → Prop) (ev : Event) (k : Nat) (s : State η) : Prop :=
  ∀ i e, s.decl ev i = some e → Within deps M k e → s.status ev i = .loaded

/-- All modules of `M` have an entry. -/
def Entered (M : Decl η → Prop) (ev : Event) (s : State η) : Prop :=
  ∀ e, M e → ∃ i, i < maxModuleNr ∧ s.decl ev i = some e

theorem Level.ready (h : Level deps M ev k s) (hall : Entered M ev s)
    (hw : Within deps M (k + 1) e) : s.Ready deps ev e := by
  intro dep hdep
  obtain ⟨e', hmem, rfl, hw'⟩ := hw dep hdep
  obtain ⟨i, hi, he'⟩ := hall e' hmem
  exact ⟨i, hi, h i e' he' hw', by rw [he']; rfl⟩

theorem Grows.level (h : Grows ev s t) (hlevel : Level deps M ev k s) : Level deps M ev k t := by
  intro i e he hw
  rw [h.decl] at he
  exact h.loaded i (hlevel i e he hw)

theorem Grows.entered (h : Grows ev s t) (hall : Entered M ev s) : Entered M ev t := by
  intro e he
  rw [h.decl]
  exact hall e he

theorem loaded_visit (hf : Follows deps run ev) (he : s.decl ev i = some e)
    (hready : s.Ready deps ev e ∨ (visit run ev s i).2 = false) :
    (visit run ev s i).1.status ev i = .loaded := by
  have hvisit := visit_cases hf s i
  generalize visit run ev s i = r at hvisit hready ⊢
  cases hvisit with
  | idle hidle => exact hidle e he
  | ok e' he' =>
    dsimp only
    rw [status_load (by rwa [decl_log]), if_pos rfl]
  | wait e' he' _ hnot =>
    cases he.symm.trans he'
    rcases hready with hready | hflag
    · exact absurd hready hnot
    · cases hflag

theorem pass_cons {l : List Nat} {found : Bool} : pass run ev (i :: l) s found =
    pass run ev l (visit run ev s i).1 (found || (visit run ev s i).2) := rfl

section Pass

variable (hf : Follows deps run ev)

include hf

theorem pass_grows : ∀ (l : List Nat) (s : State η) (found : Bool),
    Grows ev s (pass run ev l s found).1 := by
  intro l
  induction l with
  | nil => exact fun _ _ => .refl
  | cons i l ih => exact fun s found => (Grows.visit hf).trans (ih _ _)

theorem pass_inv : ∀ (l : List Nat) (s : State η) (found : Bool), Inv deps M ev s →
    Inv deps M ev (pass run ev l s found).1 := by
  intro l
  induction l with
  | nil => exact fun _ _ h => h
  | cons i l ih => exact fun s found h => ih _ _ (h.visit hf i)

theorem pass_count (j : Nat) : ∀ (l : List Nat) (s : State η) (found : Bool),
    (pass run ev l s found).1.count j ≤ s.count j + l.count j := by
  intro l
  induction l with
  | nil => exact fun _ _ => Nat.le_refl _
  | cons i l ih =>
    intro s found
    have hrest := ih (visit run ev s i).1 (found || (visit run ev s i).2)
    have hvisit := count_visit (s := s) (i := i) hf j
    rw [pass_cons, List.count_cons]
    simp only [beq_iff_eq]
    exact Nat.le_trans hrest (by omega)

theorem pass_level : ∀ (l : List Nat) (s : State η) (found : Bool),
    Entered M ev s → Level deps M ev k s → ∀ i ∈ l, s.decl ev i = some e →
    Within deps M (k + 1) e → (pass run ev l s found).1.status ev i = .loaded := by
  intro l
  induction l with
  | nil => exact fun _ _ _ _ i hi => absurd hi List.not_mem_nil
  | cons j l ih =>
    intro s found hall hlevel i hi he hw
    have hgrows : Grows ev s (visit run ev s j).1 := Grows.visit hf
    rcases List.mem_cons.mp hi with rfl | hi
    · exact (pass_grows hf l _ _).loaded i (loaded_visit hf he (.inl (hlevel.ready hall hw)))
    · exact ih _ _ (hgrows.entered hall) (hgrows.level hlevel) i hi (by rwa [hgrows.decl]) hw

theorem pass_all : ∀ (l : List Nat) (s : State η) (found : Bool), (pass run ev l s found).2 = false →
    found = false ∧ ∀ i ∈ l, ∀ e, s.decl ev i = some e →
      (pass run ev l s found).1.status ev i = .loaded := by
  intro l
  induction l with
  | nil => exact fun _ _ hfound => ⟨hfound, fun i hi => absurd hi List.not_mem_nil⟩
  | cons j l ih =>
    intro s found hfound
    rw [pass_cons] at hfound ⊢
    obtain ⟨hflag, hrest⟩ := ih _ _ hfound
    obtain ⟨hflag, hvisit⟩ := Bool.or_eq_false_iff.mp hflag
    refine ⟨hflag, fun i hi e he => ?_⟩
    rcases List.mem_cons.mp hi with rfl | hi
    · exact (pass_grows hf l _ _).loaded i (loaded_visit hf he (.inr hvisit))
    · apply hrest i hi e
      rwa [(Grows.visit hf).decl]

end Pass

def Full (ev : Event) (s : State η) : Prop := ∀ i e, s.decl ev i = some e → s.status ev i = .loaded

/-- After `k` passes, of which the last has left the flag `found`. -/
structure After (deps : η → Nat → List String) (M : Decl η → Prop) (ev : Event) (k : Nat) (s : State η)
    (found : Bool) : Prop where
  inv : Inv deps M ev s
  level : Level deps M ev k s
  full : found = false → Full ev s
  count : ∀ i, s.count i ≤ k

theorem After.pass {found : Bool} (h : After deps M ev k s found) (hf : Follows deps run ev)
    (hall : Entered M ev s) (hbound : ∀ i e, s.decl ev i = some e → i < s.total) :
    After deps M ev (k + 1) (pass run ev (List.range s.total) s false).1
      (pass run ev (List.range s.total) s false).2 := by
  have hgrows := pass_grows hf (List.range s.total) s false
  refine ⟨pass_inv hf _ _ _ h.inv, fun i e he hw => ?_, fun hfound i e he => ?_, fun i => ?_⟩
  · rw [hgrows.decl] at he
    exact pass_level hf _ s false hall h.level i (List.mem_range.mpr (hbound i e he)) he hw
  · rw [hgrows.decl] at he
    exact (pass_all hf _ s false hfound).2 i (List.mem_range.mpr (hbound i e he)) e he
  · have hcount := pass_count hf i (List.range s.total) s false
    have hone := List.nodup_iff_count_le_one.mp (List.nodup_range (n := s.total)) i
    have hk := h.count i
    omega

theorem After.passes (hf : Follows deps run ev) : ∀ (times k : Nat) (s : State η) (found : Bool),
    After deps M ev k s found → Entered M ev s → (∀ i e, s.decl ev i = some e → i < s.total) →
    Grows ev s (passes run ev times s found).1 ∧
      After deps M ev (k + (times - 1)) (passes run ev times s found).1
        (passes run ev times s found).2 := by
  intro times
  induction times with
  | zero => exact fun k s found h _ _ => ⟨.refl, h⟩
  | succ times ih =>
    intro k s found h hall hbound
    rw [Modules.passes]
    split
    next hmore =>
      have hgrows := pass_grows hf (List.range s.total) s false
      obtain ⟨hrest, hafter⟩ := ih (k + 1) _ _ (h.pass hf hall hbound) (hgrows.entered hall) (by
        rw [hgrows.decl, hgrows.total]
        exact hbound)
      rw [show k + (times + 1 - 1) = k + 1 + (times - 1) by omega]
      exact ⟨hgrows.trans hrest, hafter⟩
    next hend =>
      refine ⟨.refl, h.inv, ?_, h.full, fun i => Nat.le_trans (h.count i) (Nat.le_add_right _ _)⟩
      intro i e he hw
      by_cases hfound : found = true
      · have htimes : times = 0 := by
          by_contra hne
          exact hend ⟨hfound, hne⟩
        subst htimes
        exact h.level i e he hw
      · exact h.full (Bool.eq_false_iff.mpr hfound) i e he

/-! ## The first pass -/

theorem decl_enter {name : String} {h : η} {priv : Nat} : (s.enter i name h priv).decl .bpLoad =
    update (s.decl .bpLoad) i (some ⟨name, h, priv⟩) := by
  funext j
  by_cases hj : j = i
  · subst hj
    simp [State.decl, State.enter, Module.decl]
  · simp [State.decl, State.enter, hj]

theorem status_enter {name : String} {h : η} {priv : Nat} : (s.enter i name h priv).status .bpLoad =
    update (s.status .bpLoad) i .init := by
  funext j
  by_cases hj : j = i
  · subst hj
    simp [State.status, State.enter]
  · simp [State.status, State.enter, hj]

theorem call_enter {name : String} {h : η} {priv : Nat} :
    call run .bpLoad (s.enter i name h priv) i = visit run .bpLoad (s.enter i name h priv) i := by
  have hdue : (s.enter i name h priv).due .bpLoad i = true := by
    simp [State.due, status_enter]
  rw [visit, if_pos hdue]

/-- The modules before `i` have been entered, and called once. -/
structure Begun (deps : η → Nat → List String) (M : Decl η → Prop) (i : Nat) (s : State η)
    (found : Bool) : Prop extends After deps M .bpLoad 1 s found where
  bound : ∀ j e, s.decl .bpLoad j = some e → j < i

theorem Begun.none {found : Bool} (h : Begun deps M i s found) : s.decl .bpLoad i = none := by
  cases he : s.decl .bpLoad i with
  | none => rfl
  | some e => exact absurd (h.bound i e he) (Nat.lt_irrefl i)

theorem Begun.not_called {found : Bool} (h : Begun deps M i s found) : ∀ c ∈ s.calls, c.1 ≠ i := by
  rintro c hc rfl
  obtain ⟨e, he⟩ := h.inv.called c hc
  rw [h.none] at he
  cases he

section Enter

variable {found : Bool} (h : Begun deps M i s found) (hmem : M e) (hi : i < maxModuleNr)

include h hmem hi

theorem Begun.enter_inv :
    Inv deps M .bpLoad (s.enter i e.name e.handler e.arg) := by
  refine ⟨?_, ?_, ?_, ?_, ?_, h.inv.once⟩
  · intro j e' he'
    rw [decl_enter, update_apply] at he'
    split at he'
    next hj => exact hj ▸ hi
    next => exact h.inv.room j e' he'
  · intro j e' he'
    rw [decl_enter, update_apply] at he'
    split at he'
    next =>
      cases he'
      exact hmem
    next => exact h.inv.mem j e' he'
  · intro j e' he' hloaded
    rw [decl_enter, update_apply] at he'
    rw [status_enter, update_apply] at hloaded
    split at he'
    next hj =>
      rw [if_pos hj] at hloaded
      cases hloaded
    next hj =>
      rw [if_neg hj] at hloaded
      exact h.inv.sat j e' he' hloaded
  · intro c hc
    rw [decl_enter, update_of_ne (h.not_called c hc)]
    exact h.inv.called c hc
  · intro c hc hok
    rw [status_enter, update_of_ne (h.not_called c hc)]
    exact h.inv.done c hc hok

theorem Begun.add (hf : Follows deps run .bpLoad) :
    Begun deps M (i + 1) (call run .bpLoad (s.enter i e.name e.handler e.arg) i).1
      (found || (call run .bpLoad (s.enter i e.name e.handler e.arg) i).2) ∧
    (call run .bpLoad (s.enter i e.name e.handler e.arg) i).1.decl .bpLoad =
      update (s.decl .bpLoad) i (some e) := by
  rw [call_enter]
  have hgrows : Grows .bpLoad (s.enter i e.name e.handler e.arg) _ := Grows.visit (i := i) hf
  have hdecl := hgrows.decl
  rw [decl_enter] at hdecl
  have hself : (s.enter i e.name e.handler e.arg).decl .bpLoad i = some e := by
    rw [decl_enter, update_self]
  -- the modules before it stay as they are
  have hbefore : ∀ j, j ≠ i → s.status .bpLoad j = .loaded →
      (visit run .bpLoad (s.enter i e.name e.handler e.arg) i).1.status .bpLoad j = .loaded := by
    intro j hj hloaded
    apply hgrows.loaded
    rwa [status_enter, update_of_ne hj]
  refine ⟨⟨⟨(h.enter_inv hmem hi).visit hf i, ?_, ?_, ?_⟩, ?_⟩, hdecl⟩
  · intro j e' he' hw
    rw [hdecl, update_apply] at he'
    split at he'
    next hj =>
      cases he'
      subst hj
      -- nothing is in a chain of no modules, so it depends on nothing
      refine loaded_visit hf hself (.inl fun dep hdep => ?_)
      obtain ⟨_, _, _, hbad⟩ := hw dep hdep
      exact hbad.elim
    next hj => exact hbefore j hj (h.level j e' he' hw)
  · intro hfound j e' he'
    obtain ⟨hfound, hvisit⟩ := Bool.or_eq_false_iff.mp hfound
    rw [hdecl, update_apply] at he'
    split at he'
    next hj =>
      subst hj
      exact loaded_visit hf hself (.inr hvisit)
    next hj => exact hbefore j hj (h.full hfound j e' he')
  · intro j
    have hcount : (visit run .bpLoad (s.enter i e.name e.handler e.arg) i).1.count j ≤
        s.count j + if i = j then 1 else 0 := count_visit hf j
    have hone := h.count j
    split at hcount
    next hj =>
      have hzero : s.count j = 0 := by
        rw [State.count, List.countP_eq_zero]
        intro c hc
        simpa [← hj] using h.not_called c hc
      omega
    next => omega
  · intro j e' he'
    rw [hdecl, update_apply] at he'
    split at he'
    next hj => omega
    next => exact Nat.lt_succ_of_lt (h.bound j e' he')

end Enter

theorem addModules_spec (hf : Follows deps run .bpLoad) : ∀ (table : List (ModuleData η)) (i : Nat)
    (s : State η) (found : Bool), Begun deps M i s found → (∀ e ∈ declared table, M e) →
    i + (declared table).length ≤ maxModuleNr →
    ∃ t found', addModules run table i s found = .ok (i + (declared table).length, t, found') ∧
      Begun deps M (i + (declared table).length) t found' ∧
      ∀ j, t.decl .bpLoad j = if j < i then s.decl .bpLoad j else (declared table)[j - i]? := by
  intro table
  induction table with
  | nil =>
    intro i s found h _ _
    refine ⟨s, found, rfl, h, fun j => ?_⟩
    split
    next => rfl
    next hj =>
      cases he : s.decl .bpLoad j with
      | none => rfl
      | some e => exact absurd (h.bound j e he) hj
  | cons p rest ih =>
    intro i s found h hmem hnr
    rw [addModules]
    split
    next name evhand hname hhand =>
      have hcons : declared (p :: rest) = ⟨name, evhand, p.priv⟩ :: declared rest := by
        simp [declared, hname, hhand]
      rw [hcons] at hmem hnr ⊢
      rw [List.length_cons] at hnr ⊢
      rw [List.forall_mem_cons] at hmem
      rw [if_pos (by omega)]
      obtain ⟨hbegun, hdecl⟩ := h.add hmem.1 (by omega) hf
      obtain ⟨t, found', heq, ht, hall⟩ := ih (i + 1) _ _ hbegun hmem.2 (by omega)
      rw [show i + ((declared rest).length + 1) = i + 1 + (declared rest).length by omega]
      refine ⟨t, found', heq, ht, fun j => ?_⟩
      rw [hall, hdecl, update_apply]
      rcases Nat.lt_trichotomy j i with hj | hj | hj
      · rw [if_pos (by omega), if_neg (by omega), if_pos hj]
      · rw [if_pos (by omega), if_pos hj, if_neg (by omega), hj, Nat.sub_self, List.getElem?_cons_zero]
      · rw [if_neg (by omega), if_neg (by omega), show j - i = j - (i + 1) + 1 by omega,
          List.getElem?_cons_succ]
    next hskip =>
      have hcons : declared (p :: rest) = declared rest := by
        rw [declared, List.filterMap_cons]
        split
        next => rfl
        next heq =>
          split at heq
          next name evhand hname hhand => exact absurd hhand (hskip name evhand hname)
          next => cases heq
      rw [hcons] at hmem hnr ⊢
      exact ih i s found h hmem hnr

/-! ## Both functions -/

/-- What the calls for an event have come to, over the modules `M`. -/
structure Served (deps : η → Nat → List String) (M : Decl η → Prop) (ev : Event) (t : State η) : Prop where
  /-- modules with a chain of at most ten are loaded -/
  chain : ∀ i e, t.decl ev i = some e → Within deps M 10 e → t.status ev i = .loaded
  /-- those that wait for something they cannot get are not -/
  unsatisfiable : ∀ i e, t.decl ev i = some e → ¬ Satisfiable deps M e → t.status ev i ≠ .loaded
  /-- only they have been called -/
  called : ∀ c ∈ t.calls, ∃ e, t.decl ev c.1 = some e
  /-- none again after it has returned `MOD_ERR_OK` -/
  once : t.calls.Pairwise fun a b => a.2 = modErrOk → b.1 ≠ a.1
  /-- and none more than ten times -/
  often : ∀ i, (t.calls.countP fun c => c.1 = i) ≤ 10

theorem After.served {found : Bool} (h : After deps M ev 10 t found) : Served deps M ev t where
  chain := h.level
  unsatisfiable i e he hnot hloaded := hnot (h.inv.sat i e he hloaded)
  called := h.inv.called
  once := h.inv.once
  often := h.count

theorem begun_boot : Begun deps M 0 (State.boot : State η) false where
  inv := ⟨by simp [State.boot, State.decl], by simp [State.boot, State.decl],
    by simp [State.boot, State.decl], by simp [State.boot], by simp [State.boot], by simp [State.boot]⟩
  level := by simp [Level, State.boot, State.decl]
  full := by simp [Full, State.boot, State.decl]
  count := by simp [State.count, State.boot]
  bound := by simp [State.boot, State.decl]

theorem initModule_spec (hf : Follows deps run .bpLoad) (table : List (ModuleData η))
    (hnr : (declared table).length ≤ maxModuleNr) : ∃ t, initModule run table .boot = .ok t ∧
      t.total = (declared table).length ∧ (∀ i, t.decl .bpLoad i = (declared table)[i]?) ∧
      Served deps (· ∈ declared table) .bpLoad t := by
  obtain ⟨s, found, heq, hbegun, hdecl⟩ := addModules_spec (M := (· ∈ declared table)) hf table 0 .boot
    false begun_boot (fun _ he => he) (by omega)
  rw [Nat.zero_add] at heq hbegun
  simp only [Nat.not_lt_zero, if_false, Nat.sub_zero] at hdecl
  let s' : State η := { s with total := (declared table).length }
  have hdecl' : ∀ i, s'.decl .bpLoad i = (declared table)[i]? := hdecl
  have hafter : After deps (· ∈ declared table) .bpLoad 1 s' found :=
    ⟨⟨hbegun.inv.room, hbegun.inv.mem, hbegun.inv.sat, hbegun.inv.called, hbegun.inv.done,
      hbegun.inv.once⟩, hbegun.level, hbegun.full, hbegun.count⟩
  have hall : Entered (· ∈ declared table) .bpLoad s' := by
    intro e he
    obtain ⟨i, hi⟩ := List.mem_iff_getElem?.mp he
    exact ⟨i, Nat.lt_of_lt_of_le (List.getElem?_eq_some_iff.mp hi).1 hnr, (hdecl' i).trans hi⟩
  obtain ⟨hgrows, hend⟩ := hafter.passes hf 10 1 s' found hall hbegun.bound
  refine ⟨(passes run .bpLoad 10 s' found).1, ?_, hgrows.total, ?_, hend.served⟩
  · rw [initModule, heq]
    rfl
  · intro i
    rw [hgrows.decl]
    exact hdecl' i

theorem after_onAp (hnr : s.total ≤ maxModuleNr) (hbound : ∀ i e, s.decl .apLoad i = some e → i < s.total) :
    After deps (fun e => ∃ i, s.decl .apLoad i = some e) .apLoad 0 s.onAp true where
  inv := {
    room := fun i e he => Nat.lt_of_lt_of_le (hbound i e he) hnr
    mem := fun i e he => ⟨i, he⟩
    sat := fun i e _ hloaded => by cases hloaded
    called := by simp [State.onAp]
    done := by simp [State.onAp]
    once := by simp [State.onAp] }
  level i e _ hw := hw.elim
  full h := by cases h
  count i := by simp [State.count, State.onAp]

theorem initModuleAp_spec (hf : Follows deps run .apLoad) (hnr : s.total ≤ maxModuleNr)
    (hbound : ∀ i e, s.decl .apLoad i = some e → i < s.total) :
    (initModuleAp run s.onAp).decl .apLoad = s.decl .apLoad ∧
      Served deps (fun e => ∃ i, s.decl .apLoad i = some e) .apLoad (initModuleAp run s.onAp) := by
  have hall : Entered (fun e => ∃ i, s.decl .apLoad i = some e) .apLoad s.onAp := by
    rintro e ⟨i, he⟩
    exact ⟨i, Nat.lt_of_lt_of_le (hbound i e he) hnr, he⟩
  have hgrows := pass_grows hf (List.range s.onAp.total) s.onAp false
  have hfirst := (after_onAp hnr hbound).pass hf hall hbound
  obtain ⟨hrest, hend⟩ := hfirst.passes hf 10 1 _ _ (hgrows.entered hall) (by
    rw [hgrows.decl, hgrows.total]
    exact hbound)
  exact ⟨(hgrows.trans hrest).decl, hend.served⟩

theorem decl_of_ap (he : s.decl .apLoad i = some e) : s.decl .bpLoad i = some e := by
  obtain ⟨m, hm, rfl⟩ := Option.map_eq_some_iff.mp he
  rw [State.decl, (Option.filter_eq_some_iff.mp hm).1]
  rfl

/-- **Modules are loaded in any order of the table**, on the boot processor and,
of those that are loaded there, on the others. -/
theorem modules_loaded {depsAp : η → Nat → List String} (hbp : Follows deps run .bpLoad)
    (hap : Follows depsAp run .apLoad) (table : List (ModuleData η))
    (hnr : (declared table).length ≤ maxModuleNr) : ∃ t, initModule run table .boot = .ok t ∧
      (∀ i, t.decl .bpLoad i = (declared table)[i]?) ∧
      Served deps (· ∈ declared table) .bpLoad t ∧
      (initModuleAp run t.onAp).decl .apLoad = t.decl .apLoad ∧
      Served depsAp (fun e => ∃ i, t.decl .apLoad i = some e) .apLoad (initModuleAp run t.onAp) := by
  obtain ⟨t, heq, htotal, hdecl, hserved⟩ := initModule_spec hbp table hnr
  refine ⟨t, heq, hdecl, hserved, initModuleAp_spec hap (htotal ▸ hnr) fun i e he => ?_⟩
  have hmem := decl_of_ap he
  rw [hdecl] at hmem
  rw [htotal]
  exact (List.getElem?_eq_some_iff.mp hmem).1

/-- Handlers that look at the modules they are given the names of. -/
def lookFor : Handlers (List String) := fun names s _ ev _ =>
  if ∀ dep ∈ names, s.Loaded ev dep then modErrOk else modErrNextloop

theorem lookFor_follows (ev : Event) : Follows (fun names _ => names) lookFor ev where
  ok _ _ _ hready := if_pos hready
  wait _ _ _ hnot := if_neg hnot

/-- A driver that comes before what it waits for, a record that is skipped and
a module that waits for one that is not there. -/
def driverFirst : List (ModuleData (List String)) :=
  [⟨some "driver", some ["bus"], 0⟩, ⟨none, none, 0⟩, ⟨some "bus", some [], 0⟩, ⟨some "lost", some ["gone"], 0⟩]

/-- The driver is loaded in the second pass; the last module is called in all. -/
theorem modules_loaded_driverFirst : ∃ t, initModule lookFor driverFirst .boot = .ok t ∧
    (∀ i, t.decl .bpLoad i = (declared driverFirst)[i]?) ∧
    Served (fun names _ => names) (· ∈ declared driverFirst) .bpLoad t ∧
    (initModuleAp lookFor t.onAp).decl .apLoad = t.decl .apLoad ∧
    Served (fun names _ => names) (fun e => ∃ i, t.decl .apLoad i = some e) .apLoad
      (initModuleAp lookFor t.onAp) :=
  modules_loaded (lookFor_follows _) (lookFor_follows _) driverFirst (by decide)

example : (initModule lookFor driverFirst .boot).toOption.map
    (fun t => ((List.range 4).map (t.status .bpLoad), (List.range 3).map t.count)) =
    some ([.loaded, .loaded, .init, .init], [2, 1, 10]) := by decide +kernel

end Yaos.Modules
