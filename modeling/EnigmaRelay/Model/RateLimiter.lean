import EnigmaRelay.Foundation.TokenBucket
import EnigmaRelay.Foundation.Machine
import EnigmaRelay.Model.Config

namespace EnigmaRelay

/-- A reading of the monotonic clock, in nanoseconds. -/
abbrev Instant := Int

/-- The seconds of an `Instant` are an `i64`; its `+` panics beyond them. -/
def instantEnd : Instant := 2 ^ 63 * 10 ^ 9

def checkedAddSecs (now : Instant) (secs : Nat) : Option Instant :=
  if now + secs * 10 ^ 9 < instantEnd then some (now + secs * 10 ^ 9) else none

/-- `now.saturating_duration_since(earlier).as_secs_f64()`; floating point numbers are taken to be exact. -/
def secsSince (now earlier : Instant) : ℚ := (now - earlier).toNat / 10 ^ 9

inductive IpAddr where
  | v4 (bits : BitVec 32)
  | v6 (bits : BitVec 128)
  deriving DecidableEq, Repr

def IpAddr.localhost : IpAddr := .v4 0x7f000001#32

structure RateKey where
  ip : IpAddr
  label : String
  deriving DecidableEq, Repr

structure Bucket where
  tokens : ℚ
  last : Instant
  burst : ℚ
  rate : ℚ
  banUntil : Option Instant := none
  deriving DecidableEq, Repr

inductive Verdict where
  | allowed
  | refused
  | panicked
  deriving DecidableEq, Repr

/-- The bucket that the first call under a key inserts. -/
def Bucket.full (rate burst : ℚ) (now : Instant) : Bucket where
  tokens := burst
  last := now
  burst := burst
  rate := rate

def Bucket.banned (entry : Bucket) (now : Instant) : Bool := entry.banUntil.any (now < ·)

def Bucket.allow (banSeconds : Nat) (now : Instant) (entry : Bucket) : Verdict × Bucket :=
  if entry.banned now then (.refused, entry)
  else
    let tokens := min (entry.tokens + secsSince now entry.last * entry.rate) entry.burst
    let entry := { entry with tokens := tokens, last := now, banUntil := none }
    if 1 ≤ tokens then (.allowed, { entry with tokens := tokens - 1 })
    else
      match checkedAddSecs now banSeconds with
      | none => (.panicked, entry)
      | some banEnd => (.refused, { entry with banUntil := some banEnd })

structure RateLimiter where
  enabled : Bool
  banSeconds : Nat
  buckets : RateKey → Option Bucket

namespace RateLimiter

def new (enabled : Bool) (banSeconds : Nat) : RateLimiter := ⟨enabled, banSeconds, fun _ => none⟩

/-- The lock around the buckets makes every call one atomic step; `now` is sampled before it is taken. -/
def allow (ip : IpAddr) (label : String) (rate burst : ℚ) (now : Instant) (limiter : RateLimiter) :
    Verdict × RateLimiter :=
  if !limiter.enabled then (.allowed, limiter)
  else
    let key : RateKey := ⟨ip, label⟩
    let entry := (limiter.buckets key).getD (.full rate burst now)
    let (verdict, entry) := entry.allow limiter.banSeconds now
    (verdict, { limiter with buckets := Function.update limiter.buckets key (some entry) })

end RateLimiter

def RateLimitConfig.endpointRps (cfg : RateLimitConfig) (label : String) : Nat :=
  match label with
  | "push" => cfg.endpoints.pushRps
  | "pull" => cfg.endpoints.pullRps
  | "ack" => cfg.endpoints.ackRps
  | _ => cfg.perIpRps

/-- No answer when one of the two calls panics. -/
def enforceRate (cfg : RateLimitConfig) (ip : IpAddr) (label : String) (globalNow endpointNow : Instant)
    (limiter : RateLimiter) : Option (Result Unit) × RateLimiter :=
  if !limiter.enabled then (some (.ok ()), limiter)
  else
    match limiter.allow ip "global" cfg.perIpRps cfg.burst globalNow with
    | (.panicked, limiter) => (none, limiter)
    | (globalOk, limiter) =>
      match limiter.allow ip label (cfg.endpointRps label) cfg.burst endpointNow with
      | (.panicked, limiter) => (none, limiter)
      | (endpointOk, limiter) =>
        if globalOk = .allowed ∧ endpointOk = .allowed then (some (.ok ()), limiter)
        else (some (.error .rateLimited), limiter)

/-- `peer_ip` of a request without an address is the local host. -/
def peerIp (peerAddr : Option IpAddr) : IpAddr := peerAddr.getD .localhost

end EnigmaRelay
