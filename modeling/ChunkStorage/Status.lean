import ChunkStorage.Lib.Encoding

set_option autoImplicit false

/-! # `Status` and `StatusOr`

`common/status.h` and `common/status_or.h`. An OK status has no message, and a `StatusOr` without
a value never carries an OK status; both are kept by their constructors, so here they are fields. -/

namespace ChunkStorage

open Posix

inductive StatusCode where
  | kOk
  | kInvalidArgument
  | kNotFound
  | kAlreadyExists
  | kUnavailable
  | kTimeout
  | kIoError
  | kCorruption
  | kResourceExhausted
  | kInternal
  deriving DecidableEq

structure Status where
  code : StatusCode
  message : Bytes
  /-- An OK status has no message. -/
  message_ok : code = .kOk → message = []

namespace Status

/-- The constructor `Status(code, message)`. -/
def of (code : StatusCode) (message : Bytes) : Status where
  code := code
  message := if code = .kOk then [] else message
  message_ok h := by simp [h]

/-- `Status::Ok()`. -/
def Ok : Status := of .kOk []

def ok (status : Status) : Bool := status.code = .kOk

@[simp] theorem of_code (code : StatusCode) (message : Bytes) : (of code message).code = code := rfl

@[simp] theorem Ok_code : Ok.code = .kOk := rfl

@[simp] theorem ok_Ok : Ok.ok = true := rfl

theorem ok_iff (status : Status) : status.ok = true ↔ status.code = .kOk := by simp [ok]

@[simp] theorem ok_of (code : StatusCode) (message : Bytes) :
    (of code message).ok = decide (code = .kOk) := rfl

end Status

/-- A status that is not OK. -/
abbrev ErrorStatus := { status : Status // status.ok = false }

/-- `StatusOr::NormalizeError`. -/
def normalizeError (status : Status) : ErrorStatus :=
  if h : status.ok then
    ⟨.of .kInternal (ascii "StatusOr cannot be constructed from an OK status"), rfl⟩
  else ⟨status, by simpa using h⟩

abbrev StatusOr (α : Type) := Except ErrorStatus α

namespace StatusOr

variable {α : Type}

/-- The constructor `StatusOr(Status)`. -/
def ofStatus (status : Status) : StatusOr α := .error (normalizeError status)

/-- `StatusOr::ok()`. -/
def isOk : StatusOr α → Bool
  | .ok _ => true
  | .error _ => false

theorem normalizeError_of_not_ok {status : Status} (h : status.ok = false) :
    normalizeError status = ⟨status, h⟩ := by
  unfold normalizeError
  rw [dif_neg (by simp [h])]

end StatusOr

end ChunkStorage
