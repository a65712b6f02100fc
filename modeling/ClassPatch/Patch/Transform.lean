import ClassPatch.Patch.Machine

/-!
# Transforms

A transform is any way to change a method: it sees the method and all of its events, and gives
the events that take their place. It may take labels, give notices and reject the method, but it
does not see the notices that have been given. Every machine over events is a transform.
-/

namespace ClassPatch

/-- A way to change a method. -/
structure Transform where
  /-- The events in place of those of a method. -/
  run : MethodContext → List Event → PatchM (List Event)
  blind : ∀ method events, (run method events).Blind

/-- The transform that runs a machine over the events of a method. -/
def Transform.ofMachine {σ : Type} (machine : MethodContext → Machine σ)
    (h : ∀ method, (machine method).Blind) : Transform where
  run method := (machine method).run
  blind method := (h method).run

end ClassPatch
