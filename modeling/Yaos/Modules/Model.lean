import Mathlib.Logic.Function.Basic
import Yaos.Lib.Outcome

/-!
# The module table (`kernel/module.c`)

The linker collects the records of `DECLARE_MODULE` in a section, in the order
in which it meets the object files. `init_module` walks over them on the boot
processor, enters each in `all` and calls its handler; a handler that waits for
another module returns `MOD_ERR_NEXTLOOP` and is called again in a later pass,
of which there are ten at most. `init_module_ap` calls the handlers of the
loaded modules on every other processor, in the same way.

`percpu_status[i] = MODULE_INIT` in `init_module` writes to the link address of
the per-CPU section and not to the copy of a processor, so it has no part here:
a copy begins with the zeros of the image.

The list of calls is a record of what happened, which the code does not have.
-/

namespace Yaos.Modules

open Yaos.Lib

/-- `MAX_MODULE_NR`, the size of `all`. -/
def maxModuleNr : Nat := 0x100

/-- `MOD_ERR_OK`. -/
def modErrOk : Int := 0

/-- `MOD_ERR_NEXTLOOP`. -/
def modErrNextloop : Int := -1

/-- `MODULE_INIT` and `MODULE_LOADED`. -/
inductive Status where
  | init
  | loaded
  deriving DecidableEq

inductive Event where
  | bpLoad
  | apLoad
  deriving DecidableEq

/-- `struct moduledata`; a null pointer is `none`. -/
structure ModuleData (η : Type) where
  name : Option String
  evhand : Option η
  priv : Nat

/-- `struct module`, for a module that has been entered. -/
structure Module (η : Type) where
  status : Status
  id : Nat
  name : String
  handler : η
  arg : Nat
  data : Nat

/-- The modules; `pstatus` is the copy of `percpu_status` of the processor that
runs. -/
structure State (η : Type) where
  all : Nat → Option (Module η)
  total : Nat
  pstatus : Nat → Status
  calls : List (Nat × Int)

def State.boot {η : Type} : State η := ⟨fun _ => none, 0, fun _ => .init, []⟩

/-- Another processor, after `init_module`. -/
def State.onAp {η : Type} (s : State η) : State η := { s with pstatus := fun _ => .init, calls := [] }

variable {η : Type}

/-- The status of a module that an event is about. -/
def State.status (s : State η) : Event → Nat → Status
  | .bpLoad, i => ((s.all i).map (·.status)).getD .init
  | .apLoad, i => s.pstatus i

def State.due (s : State η) : Event → Nat → Bool
  | .bpLoad, i => s.status .bpLoad i = .init
  | .apLoad, i => s.status .bpLoad i = .loaded ∧ s.status .apLoad i = .init

/-- The handler has returned `MOD_ERR_OK`. -/
def State.load (s : State η) : Event → Nat → State η
  | .bpLoad, i =>
      let m := (s.all i).map fun m => { m with status := .loaded }
      { s with all := Function.update s.all i m }
  | .apLoad, i => { s with pstatus := Function.update s.pstatus i .loaded }

abbrev Handlers (η : Type) := η → State η → Nat → Event → Nat → Int

/-- The call of a handler, and whether it wants to be called again. -/
def call (run : Handlers η) (ev : Event) (s : State η) (i : Nat) : State η × Bool :=
  match s.all i with
  | none => (s, false)
  | some m =>
      let ret := run m.handler s i ev m.arg
      let s := { s with calls := s.calls ++ [(i, ret)] }
      if ret = modErrOk then (s.load ev i, false) else (s, ret = modErrNextloop)

/-- The body of the loops over `all`. -/
def visit (run : Handlers η) (ev : Event) (s : State η) (i : Nat) : State η × Bool :=
  if s.due ev i then call run ev s i else (s, false)

/-- The loop over `all`, from an index on. -/
def pass (run : Handlers η) (ev : Event) : List Nat → State η → Bool → State η × Bool
  | [], s, found => (s, found)
  | i :: rest, s, found =>
      let (s, more) := visit run ev s i
      pass run ev rest s (found || more)

/-- `while (found && --times)`. -/
def passes (run : Handlers η) (ev : Event) : Nat → State η → Bool → State η × Bool
  | 0, s, found => (s, found)
  | times + 1, s, found =>
      if found ∧ times ≠ 0 then
        let (s, found) := pass run ev (List.range s.total) s false
        passes run ev times s found
      else (s, found)

def State.enter (s : State η) (i : Nat) (name : String) (evhand : η) (priv : Nat) : State η :=
  { s with all := Function.update s.all i (some ⟨.init, i, name, evhand, priv, 0⟩) }

/-- The loop of `init_module` over the records. -/
def addModules (run : Handlers η) : List (ModuleData η) → Nat → State η → Bool →
    Outcome (Nat × State η × Bool)
  | [], i, s, found => .ok (i, s, found)
  | p :: rest, i, s, found =>
      match p.name, p.evhand with
      | some name, some evhand =>
          if i < maxModuleNr then
            let (s, more) := call run .bpLoad (s.enter i name evhand p.priv) i
            addModules run rest (i + 1) s (found || more)
          else .error .fault
      | _, _ => addModules run rest i s found

/-- `init_module`. -/
def initModule (run : Handlers η) (table : List (ModuleData η)) (s : State η) : Outcome (State η) := do
  let (total, s, found) ← addModules run table 0 s false
  .ok (passes run .bpLoad 10 { s with total := total } found).1

/-- `init_module_ap`. -/
def initModuleAp (run : Handlers η) (s : State η) : State η :=
  let (s, found) := pass run .apLoad (List.range s.total) s false
  (passes run .apLoad 10 s found).1

end Yaos.Modules
