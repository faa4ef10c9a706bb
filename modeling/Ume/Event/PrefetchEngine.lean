import Mathlib.Data.List.AList
import Ume.Event.MemoryPlacement
import Ume.Lib.Binary64
import Ume.Lib.Window

/-! The prefetch engine: the last addresses of each object, in which it looks for a stride, and
the queue of prefetch requests. -/

namespace Ume

structure PrefetchRequest where
  requestId : UInt64 := 0
  objectId : ObjectId := ObjectId.kNull
  targetTier : TierClass := TierClass.kRam
  confidence : Binary64 := Binary64.ofDecimal 5 1
  priority : UInt32 := 100
  expiration : UInt64 := 0
  estimatedBenefitUs : UInt64 := 0
  estimatedCostUs : UInt64 := 0
  deriving DecidableEq

structure PrefetchMetrics where
  requestsIssued : UInt64 := 0
  requestsCancelled : UInt64 := 0
  prefetchHits : UInt64 := 0
  prefetchMisses : UInt64 := 0
  totalConfidenceSumScaled : UInt64 := 0
  deriving DecidableEq

structure PrefetchEngine where
  prefetchQueue : List PrefetchRequest := []
  accessHistory : AList (fun _ : UInt64 => List UInt64) := ∅
  requestIdCounter : UInt64 := 0
  metrics : PrefetchMetrics := {}

namespace PrefetchEngine

/-- The difference of two addresses, one and two steps back from place `i` counted from the
end. -/
def strideBack (history : List UInt64) (i : Nat) : Int64 :=
  (history.getD (history.length - i) 0).toInt64 -
    (history.getD (history.length - (i + 1)) 0).toInt64

def strideRequest (requestId : UInt64) (objectId : ObjectId) (now : UInt64) : PrefetchRequest where
  requestId := requestId
  objectId := objectId
  targetTier := TierClass.kVram
  confidence := Binary64.ofDecimal 85 2
  priority := 180
  expiration := now + 1000000000
  estimatedBenefitUs := 120
  estimatedCostUs := 20

def analyzeLocality (e : PrefetchEngine) (objectId : ObjectId) (now : UInt64) : PrefetchEngine :=
  let history := (e.accessHistory.lookup objectId).getD []
  if history.length < 3 then e
  else
    let stride1 := strideBack history 1
    let stride2 := strideBack history 2
    if stride1 = stride2 ∧ stride1 ≠ 0 then
      let requestId := e.requestIdCounter + 1
      { e with
        requestIdCounter := requestId
        prefetchQueue := e.prefetchQueue ++ [strideRequest requestId objectId now] }
    else e

/-- The clock shows `now` if a request is made. -/
def recordAccess (e : PrefetchEngine) (objectId : ObjectId) (virtualAddress now : UInt64) :
    PrefetchEngine :=
  let history := Window.push 5 ((e.accessHistory.lookup objectId).getD []) virtualAddress
  analyzeLocality { e with accessHistory := e.accessHistory.insert objectId history } objectId now

/-- The number that a request comes with is replaced. -/
def submitPrefetch (e : PrefetchEngine) (req : PrefetchRequest) : PrefetchEngine :=
  let requestId := e.requestIdCounter + 1
  { e with
    requestIdCounter := requestId
    prefetchQueue := e.prefetchQueue ++ [{ req with requestId := requestId }] }

def submitPrefetches (e : PrefetchEngine) (requests : List PrefetchRequest) : PrefetchEngine :=
  requests.foldl submitPrefetch e

def cancelPrefetch (e : PrefetchEngine) (objectId : ObjectId) : PrefetchEngine :=
  let kept := e.prefetchQueue.filter fun req => req.objectId ≠ objectId
  let cancelledCount := e.prefetchQueue.length - kept.length
  if cancelledCount ≠ 0 then
    { e with
      prefetchQueue := kept
      metrics :=
        { e.metrics with
          requestsCancelled := e.metrics.requestsCancelled + .ofNat cancelledCount } }
  else e

end PrefetchEngine

end Ume
