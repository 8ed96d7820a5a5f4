import EnigmaRelay.Model.RateLimiter

namespace EnigmaRelay.Server

/-- The longest body that the JSON extractor of actix-web reads in an app without a `JsonConfig`. -/
def jsonLimit : Nat := 2_097_152

/-- `serde_json` reading push requests: the text holds the ciphertext, and base64 takes four
    characters for every three bytes that have begun. -/
structure JsonParser [Base64] where
  parse : Bytes → Option PushRequest
  covers : ∀ text body decoded, parse text = some body → Base64.decode body.ciphertextB64 = some decoded →
    4 * ((decoded.length + 2) / 3) ≤ text.length

structure App (σ : Type) where
  store : σ
  limiter : RateLimiter

def App.start {σ : Type} (cfg : RelayConfig) (store : σ) : App σ where
  store := store
  limiter := RateLimiter.new cfg.rateLimit.enabled cfg.rateLimit.banSeconds

/-- A request to `/push`, with the clock readings and hash orders that its handling meets. -/
structure HttpRequest where
  peerAddr : Option IpAddr
  text : Bytes
  globalNow : Instant
  endpointNow : Instant
  nowMillis : Nat
  order : HashOrder

inductive Reply where
  | overflow
  | malformed
  | aborted
  | answered (result : Result PushResponse)
  deriving DecidableEq

def Reply.stored : Reply → Bool
  | .answered (.ok response) => response.stored
  | _ => false

/-- `POST /push`: the extractor reads the body before the handler runs. -/
def postPush [Base64] {σ : Type} (json : JsonParser) (store : RelayStore σ) (cfg : RelayConfig) (request : HttpRequest)
    (app : App σ) : Reply × App σ :=
  if request.text.length > jsonLimit then (.overflow, app)
  else
    match json.parse request.text with
    | none => (.malformed, app)
    | some body =>
      match enforceRate cfg.rateLimit (peerIp request.peerAddr) "push" request.globalNow request.endpointNow
          app.limiter with
      | (none, limiter) => (.aborted, { app with limiter := limiter })
      | (some verdict, limiter) =>
        let context : Context := ⟨verdict.isOk, request.nowMillis, request.order⟩
        let (result, after) := push store cfg.relay context body app.store
        (.answered result, ⟨after, limiter⟩)

end EnigmaRelay.Server
