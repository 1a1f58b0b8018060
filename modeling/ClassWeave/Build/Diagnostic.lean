/-!
# Diagnostics

Mistakes in the use of markers. They are reported, and the work goes on.
-/

namespace ClassWeave

structure Diagnostic where
  className : String
  methodName : String
  message : String
  deriving DecidableEq

/-- The diagnostic as one line. -/
def Diagnostic.text (d : Diagnostic) : String := s!"{d.className}.{d.methodName}: {d.message}"

end ClassWeave
