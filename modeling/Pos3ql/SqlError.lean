import Mathlib

/-!
# SQL errors

The error value every fallible function of the engine returns: a condition code and a message.
Only the codes raised by the modelled functions are listed. Source: `sql/eval` (`sqlstate`,
`sql_err!`).
-/

namespace Pos3ql

/-- The condition codes the modelled functions raise. Source: `sqlstate`. -/
inductive SqlState
  | internalError
  | programLimitExceeded
  | serializationFailure
  | internalLockWait
  | featureNotSupported
  | transactionResolutionUnknown
  | objectNotInPrerequisiteState
  | undefinedObject
  | dataException
  | ioError
  | protocolViolation
  | invalidTransactionTermination
  | journalFull
  | lockNotAvailable
  | deadlockDetected
  | invalidParameterValue
  | outOfMemory
  | invalidSavepointSpecification
  | invalidObjectDefinition
  | undefinedFunction
  | numericOutOfRange
  | invalidTextRepresentation
  | badCopyFileFormat
  | characterNotInRepertoire
  | invalidEscapeSequence
  deriving DecidableEq, Repr

/-- A condition code with its message text. Source: `SqlError`. -/
structure SqlError where
  /-- The condition. -/
  state : SqlState
  /-- The text shown to the client. -/
  message : String
  deriving DecidableEq, Repr

/-- The largest 64-bit unsigned value. Source: `u64::MAX`. -/
def u64Max : ℕ := 2 ^ 64 - 1

lemma ok_of_bind_ok {ε α β : Type} {x : Except ε α} {f : α → Except ε β} {r : β}
    (h : (x >>= f) = .ok r) : ∃ a, x = .ok a ∧ f a = .ok r := by
  rcases x with err | a
  · cases h
  · exact ⟨a, rfl, h⟩

end Pos3ql
