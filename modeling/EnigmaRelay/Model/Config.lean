import EnigmaRelay.Model.Server

namespace EnigmaRelay

inductive RelayMode where
  | http
  | tls
  deriving DecidableEq, Repr

inductive StorageKind where
  | sled
  | memory
  deriving DecidableEq, Repr

structure EndpointRateLimit where
  pushRps : Nat := 10
  pullRps : Nat := 5
  ackRps : Nat := 10
  deriving DecidableEq, Repr

structure RateLimitConfig where
  enabled : Bool := true
  perIpRps : Nat := 20
  burst : Nat := 40
  banSeconds : Nat := 300
  endpoints : EndpointRateLimit := {}
  deriving DecidableEq, Repr

structure TlsConfig where
  certPemPath : String
  keyPemPath : String
  clientCaPemPath : Option String := none
  deriving DecidableEq, Repr

structure StorageConfig where
  kind : StorageKind := .sled
  path : String := "./relay_db"
  deriving DecidableEq, Repr

def RelayLimits.default : RelayLimits where
  maxMessageBytes := 8_388_608
  maxQueueBytesPerUser := 1_073_741_824
  maxMessagesPerUser := 200_000
  messageTtlSeconds := 14 * 24 * 3600
  gcIntervalSeconds := 60
  pullBatchMax := 256

structure RelayConfig where
  address : String := "127.0.0.1:0"
  mode : RelayMode := .http
  tls : Option TlsConfig := none
  storage : StorageConfig := {}
  relay : RelayLimits := .default
  rateLimit : RateLimitConfig := {}
  deriving DecidableEq, Repr

/-- The cargo features that a build of the relay has. -/
structure Features where
  tls : Bool
  persistence : Bool
  deriving DecidableEq, Repr

namespace RelayConfig

def validateMode (features : Features) (cfg : RelayConfig) : Result Unit :=
  match cfg.mode with
  | .http => .ok ()
  | .tls =>
    if cfg.tls.isNone then .error (.config "tls mode requires tls config")
    else if features.tls then .ok ()
    else .error (.disabled "tls feature not enabled")

def validateRelay (limits : RelayLimits) : Result Unit :=
  if limits.maxMessageBytes = 0 then .error (.config "max_message_bytes must be positive")
  else if limits.maxQueueBytesPerUser = 0 then .error (.config "max_queue_bytes_per_user must be positive")
  else if limits.maxMessagesPerUser = 0 then .error (.config "max_messages_per_user must be positive")
  else if limits.pullBatchMax = 0 then .error (.config "pull_batch_max must be positive")
  else if limits.gcIntervalSeconds = 0 then .error (.config "gc_interval_seconds must be positive")
  else .ok ()

def validateRateLimit (cfg : RateLimitConfig) : Result Unit :=
  if cfg.enabled then
    if cfg.perIpRps = 0 then .error (.config "rate_limit.per_ip_rps must be positive")
    else if cfg.burst = 0 then .error (.config "rate_limit.burst must be positive")
    else if cfg.endpoints.pushRps = 0 ∨ cfg.endpoints.pullRps = 0 ∨ cfg.endpoints.ackRps = 0 then
      .error (.config "endpoint rate limits must be positive")
    else .ok ()
  else .ok ()

def validateStorage (features : Features) (cfg : StorageConfig) : Result Unit :=
  match cfg.kind with
  | .sled => if features.persistence then .ok () else .error (.disabled "persistence feature not enabled")
  | .memory => .ok ()

/-- `validate`, its groups of checks in the order of the source. -/
def validate (features : Features) (cfg : RelayConfig) : Result Unit := do
  if Server.blank cfg.address then .error (.config "address is required") else .ok ()
  cfg.validateMode features
  validateRelay cfg.relay
  validateRateLimit cfg.rateLimit
  validateStorage features cfg.storage

/-- What a configuration that passes has been found to be. -/
structure Accepted (cfg : RelayConfig) : Prop where
  address : Server.blank cfg.address = false
  maxMessageBytes : 0 < cfg.relay.maxMessageBytes
  maxQueueBytesPerUser : 0 < cfg.relay.maxQueueBytesPerUser
  maxMessagesPerUser : 0 < cfg.relay.maxMessagesPerUser
  pullBatchMax : 0 < cfg.relay.pullBatchMax
  gcIntervalSeconds : 0 < cfg.relay.gcIntervalSeconds
  rateLimit : cfg.rateLimit.enabled = true → 0 < cfg.rateLimit.perIpRps ∧ 0 < cfg.rateLimit.burst ∧
    0 < cfg.rateLimit.endpoints.pushRps ∧ 0 < cfg.rateLimit.endpoints.pullRps ∧ 0 < cfg.rateLimit.endpoints.ackRps

theorem validateRelay_ok {limits : RelayLimits} (passed : validateRelay limits = .ok ()) :
    0 < limits.maxMessageBytes ∧ 0 < limits.maxQueueBytesPerUser ∧ 0 < limits.maxMessagesPerUser ∧
      0 < limits.pullBatchMax ∧ 0 < limits.gcIntervalSeconds := by
  unfold validateRelay at passed
  split at passed
  · cases passed
  · split at passed
    · cases passed
    · split at passed
      · cases passed
      · split at passed
        · cases passed
        · split at passed
          · cases passed
          · omega

theorem validateRateLimit_ok {cfg : RateLimitConfig} (enabled : cfg.enabled = true)
    (passed : validateRateLimit cfg = .ok ()) :
    0 < cfg.perIpRps ∧ 0 < cfg.burst ∧ 0 < cfg.endpoints.pushRps ∧ 0 < cfg.endpoints.pullRps ∧
      0 < cfg.endpoints.ackRps := by
  rw [validateRateLimit, if_pos enabled] at passed
  split at passed
  · cases passed
  · split at passed
    · cases passed
    · split at passed
      · cases passed
      · omega

theorem validate_ok {features : Features} {cfg : RelayConfig} (passed : cfg.validate features = .ok ()) :
    cfg.Accepted := by
  unfold validate at passed
  split at passed
  · cases passed
  · rename_i address
    cases mode : cfg.validateMode features with
    | error err =>
      rw [mode] at passed
      cases passed
    | ok _ =>
      cases relay : validateRelay cfg.relay with
      | error err =>
        rw [mode, relay] at passed
        cases passed
      | ok _ =>
        cases rate : validateRateLimit cfg.rateLimit with
        | error err =>
          rw [mode, relay, rate] at passed
          cases passed
        | ok _ =>
          obtain ⟨bytes, queue, messages, batch, interval⟩ := validateRelay_ok relay
          exact ⟨Bool.eq_false_iff.mpr address, bytes, queue, messages, batch, interval,
            fun enabled => validateRateLimit_ok enabled rate⟩

end RelayConfig

end EnigmaRelay
