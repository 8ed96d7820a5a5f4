import EnigmaRelay.Model.Server

namespace EnigmaRelay

/-- The status codes that the relay answers with. -/
inductive StatusCode where
  | ok
  | badRequest
  | notFound
  | conflict
  | tooManyRequests
  | internalServerError
  | serviceUnavailable
  deriving DecidableEq, Repr

/-- `details` of the source is never filled. -/
structure ErrorBody where
  code : String
  message : String
  deriving DecidableEq, Repr

structure ErrorResponse where
  error : ErrorBody
  deriving DecidableEq, Repr

namespace EnigmaRelayError

def intoResponse : EnigmaRelayError → ErrorResponse
  | .invalidInput msg => ⟨{ code := "invalid_input", message := msg }⟩
  | .rateLimited => ⟨{ code := "rate_limited", message := "rate limit exceeded" }⟩
  | .duplicate => ⟨{ code := "duplicate", message := "duplicate message" }⟩
  | .quotaExceeded => ⟨{ code := "quota_exceeded", message := "recipient quota exceeded" }⟩
  | .notFound => ⟨{ code := "not_found", message := "not found" }⟩
  | .storageError msg => ⟨{ code := "storage_error", message := msg }⟩
  | .config msg => ⟨{ code := "config_error", message := msg }⟩
  | .tls msg => ⟨{ code := "tls_error", message := msg }⟩
  | .disabled msg => ⟨{ code := "feature_disabled", message := msg }⟩
  | .internal msg => ⟨{ code := "internal_error", message := msg }⟩

def statusCode : EnigmaRelayError → StatusCode
  | .invalidInput _ => .badRequest
  | .rateLimited => .tooManyRequests
  | .duplicate => .ok
  | .quotaExceeded => .conflict
  | .notFound => .notFound
  | .storageError _ => .serviceUnavailable
  | .config _ => .badRequest
  | .tls _ => .internalServerError
  | .disabled _ => .serviceUnavailable
  | .internal _ => .internalServerError

/-- `error_response`: the status line and the body. -/
def errorResponse (err : EnigmaRelayError) : StatusCode × ErrorResponse := (err.statusCode, err.intoResponse)

end EnigmaRelayError

end EnigmaRelay
