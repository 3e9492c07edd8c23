import QueryGrammar.Finish.Trim
/-!
What may be chosen for a build.
-/
namespace QueryGrammar

structure Options where
  /-- Insertions carry their derivations. -/
  includeTrees : Bool := false
  /-- Unused components are removed instead of failing the build. -/
  quiet : Bool := false
  /-- Shared right-hand sides are reported. -/
  checkAmbiguity : Bool := false
  deriving DecidableEq

namespace Options

def unusedPolicy (o : Options) : UnusedPolicy :=
  if o.quiet then .warn else .deny

end Options

end QueryGrammar
