import EnigmaRelay.Memory.Delivered
import EnigmaRelay.Memory.Handlers
import EnigmaRelay.Memory.PageLaw
import EnigmaRelay.Memory.PurgeLaw
import EnigmaRelay.Memory.Refused
import EnigmaRelay.Sled.AckRetry
import EnigmaRelay.Sled.PullUnderWriters
import EnigmaRelay.Sled.PurgeFails
import EnigmaRelay.Sled.PurgeIndex
import EnigmaRelay.Backends.Arrival
import EnigmaRelay.Backends.Pushable
import EnigmaRelay.Limiter.Admission
import EnigmaRelay.Limiter.Panics
import EnigmaRelay.Backends.Consumer
import EnigmaRelay.Foundation.Linearization
import EnigmaRelay.Foundation.Totals
import EnigmaRelay.Memory.Ledger
import EnigmaRelay.Model.Errors
import EnigmaRelay.Model.Metrics
import EnigmaRelay.Model.Service
import EnigmaRelay.Service.Admission
import EnigmaRelay.Service.Counters
import EnigmaRelay.Service.Replies
import EnigmaRelay.Service.Tenants
import EnigmaRelay.Sled.Durable
import EnigmaRelay.Sled.Exact
import EnigmaRelay.Sled.GcLoop
import EnigmaRelay.Sled.Ledger
import EnigmaRelay.Sled.PurgeEnds
