import CloudBurrow.Codec.Float64
import CloudBurrow.Codec.ParseInt
import CloudBurrow.Tasks.Names

namespace CloudBurrow.Tasks

open Utf8

inductive State where
  | running | paused | disabled
deriving DecidableEq

def millisecond : Time := 1000000

def second : Time := 1000 * millisecond

def hour : Time := 3600 * second

structure RetryConfig where
  maxAttempts : Int
  minBackoff : Time
  maxBackoff : Time
  maxDoublings : Int
  maxRetryDuration : Time
deriving DecidableEq

def defaultRetryConfig : RetryConfig := ⟨100, 100 * millisecond, hour, 16, 0⟩

def RetryConfig.withDefaults (b : RetryConfig) : RetryConfig where
  maxAttempts := if b.maxAttempts = 0 then defaultRetryConfig.maxAttempts else b.maxAttempts
  minBackoff := if b.minBackoff ≤ 0 then defaultRetryConfig.minBackoff else b.minBackoff
  maxBackoff := if b.maxBackoff ≤ 0 then defaultRetryConfig.maxBackoff else b.maxBackoff
  maxDoublings := if b.maxDoublings ≤ 0 then defaultRetryConfig.maxDoublings else b.maxDoublings
  maxRetryDuration := b.maxRetryDuration

def RetryConfig.shouldRetry (b : RetryConfig) (attempts : Int) : Bool :=
  decide (b.maxAttempts < 0) || decide (attempts < b.maxAttempts)

def RetryConfig.shouldRetryAfter (b : RetryConfig) (attempts : Int) (sinceFirst : Time) : Bool :=
  b.shouldRetry attempts || (decide (0 < b.maxRetryDuration) && decide (sinceFirst < b.maxRetryDuration))

def RetryConfig.delay (b : RetryConfig) (attempt : Int) : Time :=
  if attempt < 1 then 0
  else
    let k := attempt - 1
    -- withDefaults has made the backoffs positive
    let least := Float64.round b.minBackoff.toNat
    let d :=
      if k ≤ b.maxDoublings then least * 2 ^ k.toNat
      else Float64.mul (least * 2 ^ b.maxDoublings.toNat) (k - b.maxDoublings + 1).toNat
    if Float64.round b.maxBackoff.toNat < d then b.maxBackoff else ParseInt.wrap d

structure Queue where
  name : Bytes
  state : State
  retryConfig : RetryConfig
  maxConcurrentDispatches : Int
  created : Time
  purged : Time
  targetsHost : Bool
deriving DecidableEq

def defaultConcurrentDispatches : Int := 1000

def withDefaultLimit (n : Int) : Int := if n ≤ 0 then defaultConcurrentDispatches else n

structure HttpRequest where
  url : Bytes
  method : Bytes
  headers : List (Bytes × Bytes)
  body : Bytes
  oidcToken : Option (Bytes × Bytes)
  oauthToken : Option (Bytes × Bytes)
deriving DecidableEq

structure AppEngineRequest where
  method : Bytes
  relativeURI : Bytes
  headers : List (Bytes × Bytes)
  body : Bytes
  routing : Option (Bytes × Bytes × Bytes)
deriving DecidableEq

structure Attempted where
  scheduled : Time
  dispatched : Time
  responded : Time
  code : Nat
  message : Bytes
deriving DecidableEq

structure Task where
  name : Bytes
  queue : Bytes
  httpRequest : Option HttpRequest
  appEngineHttpRequest : Option AppEngineRequest
  scheduleTime : Time
  created : Time
  dispatchCount : Int
  responseCount : Int
  lastResponseCode : Nat
  firstAttempt : Time
  lastAttempt : Option Attempted
  dispatchDeadline : Time
  runRequested : Time
  namedByServer : Bool
  serial : Nat
deriving DecidableEq

inductive Refusal where
  | malformed (name : Bytes)
  | notQueueName (name : Bytes)
  | badQueueID (id : Bytes)
  | notTaskName (name : Bytes)
  | badTaskID (id : Bytes)
  | noTarget
  | queueNotFound (name : Bytes)
  | queueExists (name : Bytes)
  | taskNotFound (name : Bytes)
  | taskExists (name : Bytes)
  | nameReserved (name : Bytes) (expires : Time)
deriving DecidableEq

structure Store where
  queues : Std.ExtTreeMap Bytes Queue
  tasks : Std.ExtTreeMap Bytes Task
  tombstones : Std.ExtTreeMap Bytes Time
  swept : Time
  created : Nat
  keyed : ∀ (n : Bytes) (t : Task), tasks[n]? = some t → t.name = n

namespace Store

def empty : Store := ⟨∅, ∅, ∅, 0, 0, by simp⟩

variable (s : Store)

def getTask (name : Bytes) : Except Refusal Task :=
  match s.tasks[name]? with
  | none => .error (.taskNotFound name)
  | some t => .ok t

def getQueue (name : Bytes) : Except Refusal Queue :=
  match s.queues[name]? with
  | none => .error (.queueNotFound name)
  | some q => .ok q

def put (t : Task) : Store where
  queues := s.queues
  tasks := s.tasks.insert t.name t
  tombstones := s.tombstones
  swept := s.swept
  created := s.created
  keyed := by
    intro n t' ht'
    rw [Std.ExtTreeMap.getElem?_insert] at ht'
    split_ifs at ht' with heq
    · cases ht'
      exact Std.LawfulEqCmp.eq_of_compare heq
    · exact s.keyed n t' ht'

def without (gone : Bytes → Bool) : Store where
  queues := s.queues
  tasks := s.tasks.filter fun n _ => !gone n
  tombstones := s.tombstones
  swept := s.swept
  created := s.created
  keyed := by
    intro n t ht
    rw [Std.ExtTreeMap.getElem?_filter'] at ht
    exact s.keyed n t (Option.filter_eq_some_iff.mp ht).1

theorem getElem?_put (t : Task) (n : Bytes) :
    (s.put t).tasks[n]? = if t.name = n then some t else s.tasks[n]? := by
  simp [put, Std.ExtTreeMap.getElem?_insert]

theorem getElem?_without (gone : Bytes → Bool) (n : Bytes) :
    (s.without gone).tasks[n]? = if gone n then none else s.tasks[n]? := by
  rw [without, Std.ExtTreeMap.getElem?_filter']
  cases s.tasks[n]? <;> cases gone n <;> simp

def checkQueueName (name : Bytes) : Except Refusal Unit :=
  match parse name with
  | none => .error (.malformed name)
  | some n =>
    if n.collection ≠ ascii "queues" then .error (.notQueueName name)
    else if queueID n.id then .ok ()
    else .error (.badQueueID n.id)

def putQueue (q : Queue) : Store := { s with queues := s.queues.insert q.name q }

def createQueue (q : Queue) (now : Time) : Except Refusal Store := do
  checkQueueName q.name
  match s.queues[q.name]? with
  | some _ => .error (.queueExists q.name)
  | none =>
    .ok (s.putQueue { q with
      retryConfig := q.retryConfig.withDefaults
      maxConcurrentDispatches := withDefaultLimit q.maxConcurrentDispatches
      created := if q.created = 0 then now else q.created })

def updateQueue (name : Bytes) (retry : RetryConfig) (limit : Int) (host : Bool) (now : Time) :
    Except Refusal Store := do
  checkQueueName name
  let q := (s.queues[name]?).getD ⟨name, .running, retry, limit, now, 0, host⟩
  .ok (s.putQueue { q with
    name := name
    retryConfig := retry.withDefaults
    maxConcurrentDispatches := withDefaultLimit limit
    targetsHost := host })

def setQueueState (name : Bytes) (state : State) : Except Refusal Store := do
  let q ← s.getQueue name
  .ok (s.putQueue { q with name := name, state := state })

def deleteQueue (name : Bytes) : Except Refusal Store := do
  let _ ← s.getQueue name
  let s' := s.without (under name).isPrefixOf
  .ok { s' with
    queues := s'.queues.erase name
    tombstones := s'.tombstones.filter fun n _ => !(under name).isPrefixOf n }

def purgeQueue (name : Bytes) (now : Time) : Except Refusal Store := do
  let q ← s.getQueue name
  .ok ((s.without (under name).isPrefixOf).putQueue { q with name := name, purged := now })

def tombstoneTTL : Time := hour

def tombstoneSweep : Time := 60 * second

def acceptable (t : Task) (n : Name) : Except Refusal Unit :=
  if n.collection ≠ ascii "tasks" ∨ n.parentCollection ≠ ascii "queues" then
    .error (.notTaskName t.name)
  else if !taskID n.id then .error (.badTaskID n.id)
  else if t.httpRequest.isNone && t.appEngineHttpRequest.isNone then .error .noTarget
  else .ok ()

def posted (r : HttpRequest) : HttpRequest :=
  if r.method = [] then { r with method := ascii "POST" } else r

def stamped (t : Task) (queue : Bytes) (serial : Nat) (now : Time) : Task :=
  { t with
    queue := queue
    httpRequest := t.httpRequest.map posted
    created := if t.created = 0 then now else t.created
    scheduleTime := if t.scheduleTime = 0 then now else t.scheduleTime
    serial := serial }

def nameFree (name : Bytes) (now : Time) : Except Refusal Unit :=
  match s.tasks[name]?, s.tombstones[name]? with
  | some _, _ => .error (.taskExists name)
  | none, some expires => if now < expires then .error (.nameReserved name expires) else .ok ()
  | none, none => .ok ()

def filing (t : Task) (n : Name) : Bytes :=
  if t.queue = [] then n.locationName ++ ascii "/queues/" ++ n.parentID else t.queue

def createTask (t : Task) (now : Time) : Except Refusal Store := do
  match parse t.name with
  | none => .error (.malformed t.name)
  | some n =>
    acceptable t n
    let q ← s.getQueue (filing t n)
    if t.httpRequest.any (·.url = []) && !q.targetsHost then .error .noTarget
    else
      s.nameFree t.name now
      let s' := s.put (stamped t (filing t n) s.created now)
      .ok { s' with tombstones := s'.tombstones.erase t.name, created := s.created + 1 }

def withTombstone (t : Task) (now : Time) : Std.ExtTreeMap Bytes Time :=
  if t.namedByServer then s.tombstones else s.tombstones.insert t.name (now + tombstoneTTL)

def expiredTombstone (now : Time) (name : Bytes) : Bool := (s.tombstones[name]?).any (· ≤ now)

def deleteTask (name : Bytes) (now : Time) : Except Refusal Store := do
  let t ← s.getTask name
  let kept := s.withTombstone t now
  let sweep := tombstoneSweep ≤ now - s.swept
  .ok { s.without (· == name) with
    tombstones := if sweep then kept.filter fun n _ => !s.expiredTombstone now n else kept
    swept := if sweep then now else s.swept }

def updateTask (t : Task) : Except Refusal Store := do
  let stored ← s.getTask t.name
  .ok (s.put (if stored.runRequested ≠ 0 ∧ stored.runRequested ≠ t.runRequested then
    { t with runRequested := stored.runRequested } else t))

def runTask (name : Bytes) (now : Time) : Except Refusal Store := do
  let t ← s.getTask name
  .ok (s.put { t with runRequested := now })

def takeRun (name : Bytes) (requested : Time) : Store :=
  match s.tasks[name]? with
  | none => s
  | some t => if t.runRequested = requested then s.put { t with runRequested := 0 } else s

def runningQueue (name : Bytes) : Bool := (s.queues[name]?).any fun q => q.state = .running

def due (now : Time) (t : Task) : Bool :=
  decide (t.runRequested ≠ 0) || (decide (t.scheduleTime ≤ now) && s.runningQueue t.queue)

def dueTasks (now : Time) : List Task := (s.tasks.toList.map Prod.snd).filter (s.due now)

end Store

end CloudBurrow.Tasks
