/-! The error codes of the modelled functions. -/

namespace Thunder.Core

def errorNone : Nat := 0
def errorGeneral : Nat := 1
def errorIllegalState : Nat := 5
def errorInvalidInputLength : Nat := 16
def errorUnknownKey : Nat := 22
def errorReadError : Nat := 39
def errorWriteError : Nat := 40

end Thunder.Core
