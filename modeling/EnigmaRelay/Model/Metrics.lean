import EnigmaRelay.Model.Store

namespace EnigmaRelay

/-- The fields of `RelayMetrics`. -/
inductive Counter where
  | pushTotal
  | pushStored
  | duplicates
  | pullTotal
  | ackTotal
  | ackDeleted
  | rateLimited
  | gcRemoved
  deriving DecidableEq, Repr

/-- Atomic 64-bit counters. -/
structure RelayMetrics where
  pushTotal : UInt64 := 0
  pushStored : UInt64 := 0
  duplicates : UInt64 := 0
  pullTotal : UInt64 := 0
  ackTotal : UInt64 := 0
  ackDeleted : UInt64 := 0
  rateLimited : UInt64 := 0
  gcRemoved : UInt64 := 0
  deriving DecidableEq, Repr

namespace RelayMetrics

/-- `load` of one counter. -/
def load (metrics : RelayMetrics) : Counter → UInt64
  | .pushTotal => metrics.pushTotal
  | .pushStored => metrics.pushStored
  | .duplicates => metrics.duplicates
  | .pullTotal => metrics.pullTotal
  | .ackTotal => metrics.ackTotal
  | .ackDeleted => metrics.ackDeleted
  | .rateLimited => metrics.rateLimited
  | .gcRemoved => metrics.gcRemoved

/-- `fetch_add` on one counter: it wraps around. -/
def fetchAdd (metrics : RelayMetrics) (amount : UInt64) : Counter → RelayMetrics
  | .pushTotal => { metrics with pushTotal := metrics.pushTotal + amount }
  | .pushStored => { metrics with pushStored := metrics.pushStored + amount }
  | .duplicates => { metrics with duplicates := metrics.duplicates + amount }
  | .pullTotal => { metrics with pullTotal := metrics.pullTotal + amount }
  | .ackTotal => { metrics with ackTotal := metrics.ackTotal + amount }
  | .ackDeleted => { metrics with ackDeleted := metrics.ackDeleted + amount }
  | .rateLimited => { metrics with rateLimited := metrics.rateLimited + amount }
  | .gcRemoved => { metrics with gcRemoved := metrics.gcRemoved + amount }

theorem load_fetchAdd (metrics : RelayMetrics) (amount : UInt64) (added counter : Counter) :
    (metrics.fetchAdd amount added).load counter = metrics.load counter + if added = counter then amount else 0 := by
  cases added <;> cases counter <;> simp [fetchAdd, load]

end RelayMetrics

end EnigmaRelay
