namespace Prose

/-- The settings of a parse: the name of the source in positions, whether a last statement needs its
closing `.`, how deep cascades and blocks may nest, and whether an unused value is worth a warning.
-/
structure Options where
  sourceName : String := "<input>"
  requireTerminators : Bool := false
  maxNestingDepth : Nat := 256
  warnOnDiscardedValues : Bool := true
  deriving DecidableEq, Inhabited

end Prose
