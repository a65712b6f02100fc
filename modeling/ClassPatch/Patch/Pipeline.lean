import ClassPatch.Patch.ConstantResult
import ClassPatch.Patch.ForcedJump
import ClassPatch.Patch.PropertyGuard
import ClassPatch.Patch.Transform

/-!
# Pipelines

A pipeline is a list of stages, each a transform for the methods of one name. The stages of a
method run one after the other over all of its events, and the first to reject the method ends the
run. Most transforms are one of the `Strategy`s, but a stage takes any.
-/

namespace ClassPatch

/-- The ways to change a method that come with the library. -/
inductive Strategy
  | constantResult (r : ConstantResult)
  | forcedJump (j : ForcedJump)
  | propertyGuard (g : PropertyGuard)
  deriving DecidableEq

/-- The events of a method after a strategy. -/
def Strategy.run (strategy : Strategy) (method : MethodContext) (events : List Event) :
    PatchM (List Event) :=
  match strategy with
  | constantResult r => (r.machine method).run events
  | forcedJump j => (j.machine method).run events
  | propertyGuard g => (g.machine method).run events

theorem Strategy.blind_run (strategy : Strategy) (method : MethodContext) (events : List Event) :
    (strategy.run method events).Blind := by
  cases strategy with
  | constantResult r => exact (r.blind_machine method).run events
  | forcedJump j => exact (j.blind_machine method).run events
  | propertyGuard g => exact (g.blind_machine method).run events

def Strategy.transform (strategy : Strategy) : Transform := ⟨strategy.run, strategy.blind_run⟩

/-- A transform for the methods of one name. -/
structure Stage where
  ofTransform ::
  methodName : String
  transform : Transform

/-- The stage of a strategy. -/
def Stage.mk (methodName : String) (strategy : Strategy) : Stage :=
  .ofTransform methodName strategy.transform

/-- Stages in the order in which they run. -/
abbrev Pipeline := List Stage

namespace Pipeline

/-- Some stage is for methods of the name. -/
def targets (p : Pipeline) (methodName : String) : Bool :=
  p.any fun stage => stage.methodName == methodName

/-- Runs the stages of a method. -/
def run (p : Pipeline) (method : MethodContext) (events : List Event) : PatchM (List Event) :=
  (p.filter fun stage => stage.methodName == method.methodName).foldlM
    (fun events stage => stage.transform.run method events) events

end Pipeline
end ClassPatch
