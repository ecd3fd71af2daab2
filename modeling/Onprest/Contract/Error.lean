/-! The public error value of a failed call. -/

namespace Onprest.Contract

/-- What a failed call says about its effects. -/
inductive Outcome
  | notStarted | noChange | rolledBack | committed | unknown
deriving DecidableEq, Repr

structure ErrorValue where
  code : String
  message : String
  reason : String := ""
  outcome : Outcome
deriving DecidableEq, Repr

def systemErrorCodes : List String :=
  ["INVALID_REQUEST", "VALIDATION_FAILED", "AUTH_FAILED", "CAPABILITY_DENIED", "PERMISSION_DENIED", "NOT_FOUND",
    "SOURCE_CHANGED", "CONFLICT", "LIMIT_EXCEEDED", "RATE_LIMITED", "BUSY", "AGENT_OFFLINE",
    "DEPENDENCY_UNAVAILABLE", "EXECUTION_TIMEOUT", "EXECUTION_FAILED", "OUTPUT_INVALID",
    "OUTCOME_UNKNOWN", "INTERNAL_ERROR"]

def codeChar (c : Char) : Bool := ('A' ≤ c && c ≤ 'Z') || ('0' ≤ c && c ≤ '9') || c == '_'

/-- `^[A-Z][A-Z0-9_]*$`. -/
def reasonCode (s : List Char) : Bool :=
  match s with
  | [] => false
  | c :: cs => 'A' ≤ c && c ≤ 'Z' && cs.all codeChar

/-- `^APP_[A-Z][A-Z0-9_]{0,59}$`. -/
def appCode (s : List Char) : Bool :=
  "APP_".toList.isPrefixOf s && reasonCode (s.drop 4) && s.length ≤ 64

def isControl (c : Char) : Bool := c.toNat ≤ 0x1f || (0x7f ≤ c.toNat && c.toNat ≤ 0x9f)

/-- `Validate` returns no error. -/
def ErrorValue.validate (e : ErrorValue) : Bool :=
  (systemErrorCodes.contains e.code || appCode e.code.toList) &&
  (1 ≤ e.message.utf8ByteSize && e.message.utf8ByteSize ≤ 1024) &&
  e.message.toList.all (fun c => !isControl c) &&
  (e.reason == "" || reasonCode e.reason.toList) &&
  !(appCode e.code.toList && e.reason != "")

end Onprest.Contract
