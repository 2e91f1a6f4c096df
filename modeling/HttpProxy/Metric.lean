import Mathlib.Algebra.Order.Ring.Rat
import Mathlib.Tactic.FieldSimp

/-!
# Metrics

`metric.c`: counters of the proxy's connections. The code keeps them in doubles; here they are
exact. Time is what `time` returned, in seconds.
-/

namespace HttpProxy

structure Metrics where
  INST_CONCURRENT_CONNECTIONS : ℚ := 0
  MAX_CONCURRENT_CONNECTIONS : ℚ := 0
  ACCESSES : ℚ := 0
  TRANSFERED_BYTES : ℚ := 0
  AVG_CONNECTION_TIME : ℚ := 0
  connectionTimeSum : ℚ := 0
deriving DecidableEq

/-- What `metric_new_connection` does to the metrics; the connection keeps the time of the call. -/
def metricNewConnection (m : Metrics) : Metrics :=
  let n := m.INST_CONCURRENT_CONNECTIONS + 1
  { m with
    INST_CONCURRENT_CONNECTIONS := n
    MAX_CONCURRENT_CONNECTIONS :=
      if n > m.MAX_CONCURRENT_CONNECTIONS then n else m.MAX_CONCURRENT_CONNECTIONS }

/-- `metric_close_connection` at time `endTime` of a connection made at `initTime`. -/
def metricCloseConnection (initTime endTime : Int) (m : Metrics) : Metrics :=
  let accesses := m.ACCESSES + 1
  let sum := m.connectionTimeSum + (endTime - initTime : Int)
  { m with
    INST_CONCURRENT_CONNECTIONS := m.INST_CONCURRENT_CONNECTIONS - 1
    ACCESSES := accesses
    connectionTimeSum := sum
    AVG_CONNECTION_TIME := sum / accesses }

def metricAddTransferedBytes (n : Nat) (m : Metrics) : Metrics :=
  { m with TRANSFERED_BYTES := m.TRANSFERED_BYTES + n }

end HttpProxy
