import Mathlib.Data.List.Basic

/-!
# The settings contract of OpenThread

`settings.h`: a key has any number of values, numbered from zero, and a get
hands out one of them.
-/

namespace BouffaloSdk.OtSettings

inductive OtError
  | otErrorNone
  | otErrorFailed
  | otErrorNoBufs
  | otErrorNotFound
  deriving DecidableEq, Repr

/-- What a get hands back: the bytes put into the caller's buffer and the length
variable, for those that were passed. -/
structure GetReply where
  err : OtError
  value : Option (List UInt8)
  length : Option Nat
  deriving DecidableEq, Repr

/-- What a get answers to a key with these values. -/
def answer (values : List (List UInt8)) (aIndex : Int) (aValue : Bool)
    (aValueLength : Option Nat) : GetReply :=
  match if aIndex < 0 then none else values[aIndex.toNat]? with
  | none => ⟨.otErrorNotFound, none, aValueLength⟩
  | some value =>
    ⟨.otErrorNone, if aValue then aValueLength.map value.take else none,
      aValueLength.map fun _ => value.length⟩

/-- `snprintf` into `size` bytes: the text kept and the length it would have. -/
def snprintf (size : Nat) (text : List Char) : List Char × Int :=
  (text.take (size - 1), text.length)

end BouffaloSdk.OtSettings
