import Makewright.Distinct
import Makewright.Error

/-!
# Dependency order

`Order.walk` goes through declared targets in the order of their declaration and through the
dependencies of each in the order in which it lists them, and puts every target behind everything it
depends on. On the way it collects, for every target, the list of all targets that it depends on,
each once and each behind what it depends on itself (its closure).

A dependency that is not declared and a cycle end the walk. `trail` holds the targets that the walk
is inside of, outermost first; meeting one of them again is a cycle. A trail holds declared targets
only, and each of them once, so `fuel` need not exceed the number of declared targets.
-/

set_option autoImplicit false

namespace Makewright

/-- The targets that are finished, in order, and their closures. -/
structure Resolution where
  order : List Target
  closures : List (Target × List Target)
  deriving DecidableEq, Repr

namespace Resolution

/-- Nothing is finished yet. -/
def empty : Resolution := ⟨[], []⟩

/-- The closure of a finished target. -/
def closure? (r : Resolution) (target : Target) : Option (List Target) :=
  r.closures.lookup target

/-- The closure of a finished target; nothing stands below any other target. -/
def below (r : Resolution) (target : Target) : List Target :=
  (r.closure? target).getD []

/-- One more target is finished. -/
def finish (r : Resolution) (target : Target) (closure : List Target) : Resolution :=
  ⟨r.order ++ [target], r.closures ++ [(target, closure)]⟩

end Resolution

namespace Order

/-- The declared targets and what each of them lists as its dependencies. -/
abbrev Declarations := List (Target × List Target)

/-- What a target lists as its dependencies. -/
def Declarations.listed (declared : Declarations) (target : Target) : List Target :=
  (declared.lookup target).getD []

/-- Take in one more dependency of a target: finish it with `finish`, and add it to the closure
collected so far, behind what it depends on itself. -/
def advance (declared : Declarations) (target : Target)
    (finish : Resolution → Target → Except BuildError Resolution) :
    Resolution × List Target → Target → Except BuildError (Resolution × List Target)
  | (done, closure), dependency =>
    if (declared.lookup dependency).isNone then .error (.unresolved target dependency none)
    else do
      let done ← finish done dependency
      .ok (done, addAllOnce closure (done.below dependency ++ [dependency]))

/-- Finish a target after everything it depends on. -/
def visit (declared : Declarations) : Nat → List Target → Resolution → Target →
    Except BuildError Resolution
  | fuel, trail, done, target =>
    if target ∈ done.order then .ok done
    else if target ∈ trail then .error (.cycle (trail.dropWhile (· != target) ++ [target]))
    else
      match fuel with
      | 0 => .error .endlessWalk
      | fuel + 1 => do
        let (done, closure) ← (declared.listed target).foldlM
          (advance declared target (visit declared fuel (trail ++ [target]))) (done, [])
        .ok (done.finish target closure)

/-- Finish every declared target. -/
def walk (declared : Declarations) : Except BuildError Resolution :=
  (declared.map Prod.fst).foldlM (visit declared declared.length []) Resolution.empty

end Order

end Makewright
