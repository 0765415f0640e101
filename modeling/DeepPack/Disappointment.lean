import DeepPack.Library.Action
import Mathlib.Algebra.Order.Ring.Nat

/-! The error codes, and the ways a modelled run can fail to succeed. -/
namespace DeepPack

inductive Errc where
  | nothing
  | bad
  | endOfStream
  | invalidAdditionalInformation
  | itemTypeMismatch
  | itemValueOutOfRange
  | unknownProperty
  | tooManyProperties
  | itemVersionPropertyMissing
  | itemVersionMismatch
  | requiredObjectPropertyMissing
  | notEnoughMemory
  | missingData
  | invalidIndefiniteSubitem
  | tupleSizeMismatch
  | duplicateKey
  | oversizedAdditionalInformationCoding
  | indefiniteItem
  | stringExceedsSizeLimit
  | bufferSizeExceeded
  deriving DecidableEq, Repr

/-- Why a run did not succeed. -/
inductive Fault where
  /-- The function returned this error. -/
  | errc (e : Errc)
  /-- It touched memory outside of the buffer or container it was given; what comes of that is not followed. -/
  | outOfBounds
  /-- One of its loops has not ended within the rounds it was given. -/
  | running
  /-- An exception was thrown where none may leave: the program ends. -/
  | terminated
  deriving DecidableEq, Repr

/-- Returns an error code. -/
def err {σ α : Type} (e : Errc) : Library.Action Fault σ α := Library.Action.fail (.errc e)

@[simp] theorem err_apply {σ α : Type} (e : Errc) (s : σ) :
    (err e : Library.Action Fault σ α) s = (.error (.errc e), s) := rfl

/-- The number of values of a 64 bit counter. -/
abbrev wordLimit : Nat := 2 ^ 64

/-- The largest `size_t`. -/
abbrev sizeMax : Nat := wordLimit - 1

end DeepPack
