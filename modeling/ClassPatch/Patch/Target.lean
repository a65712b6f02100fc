/-!
# Target classes

The name of a class is written with dots between its parts in source text and with slashes inside
class files. A target is given in either form and names the class in both. There are no wildcards:
a copy of a class under another name is another class.
-/

namespace ClassPatch

/-- A class named in both forms. -/
structure ClassTarget where
  dotted : String
  internal : String
  deriving DecidableEq

namespace ClassTarget

/-- The class with a name in either form. -/
def ofName (name : String) : ClassTarget where
  dotted := name.map fun c => if c = '/' then '.' else c
  internal := name.map fun c => if c = '.' then '/' else c

/-- The name is the target's, in either form. -/
def isNamed (target : ClassTarget) (name : String) : Bool :=
  name == target.internal || name == target.dotted

end ClassTarget
end ClassPatch
