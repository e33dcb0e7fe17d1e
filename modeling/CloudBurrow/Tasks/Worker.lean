import CloudBurrow.Process.Threads
import CloudBurrow.Tasks.Queues

namespace CloudBurrow.Tasks

open Utf8 Threads

structure Worker where
  inflight : Finset Bytes
  perQueue : Bytes → Int

namespace Worker

def idle : Worker := ⟨∅, fun _ => 0⟩

variable (w : Worker)

def mark (t : Task) : Worker :=
  ⟨insert t.name w.inflight, Function.update w.perQueue t.queue (w.perQueue t.queue + 1)⟩

def release (t : Task) : Worker :=
  ⟨w.inflight.erase t.name, Function.update w.perQueue t.queue (w.perQueue t.queue - 1)⟩

end Worker

structure Server where
  store : Store
  worker : Worker

inductive Call where
  | createQueue (q : Queue)
  | updateQueue (name : Bytes) (retry : RetryConfig) (limit : Int) (host : Bool)
  | setQueueState (name : Bytes) (state : State)
  | deleteQueue (name : Bytes)
  | purgeQueue (name : Bytes)
  | createTask (t : Task)
  | deleteTask (name : Bytes)
  | runTask (name : Bytes)
deriving DecidableEq

def Call.apply (s : Store) (now : Time) : Call → Except Refusal Store
  | .createQueue q => s.createQueue q now
  | .updateQueue name retry limit host => s.updateQueue name retry limit host now
  | .setQueueState name state => s.setQueueState name state
  | .deleteQueue name => s.deleteQueue name
  | .purgeQueue name => s.purgeQueue name now
  | .createTask t => s.createTask t now
  | .deleteTask name => s.deleteTask name now
  | .runTask name => s.runTask name now

inductive Stage where
  | listing
  | ready
  | marked (t : Task) (forced : Bool)
  | dropping (t : Task)
  | taking (fresh : Task)
deriving DecidableEq

structure Pass where
  now : Time
  due : List Task
  limits : List (Bytes × Int)
  stage : Stage
deriving DecidableEq

def Pass.starting : Pass := ⟨0, [], [], .listing⟩

inductive Phase where
  | out
  | failed
  | fetched (current : Task)
  | judged (current : Task) (retry : RetryConfig)
  | over
deriving DecidableEq

structure Attempt where
  task : Task
  phase : Phase
deriving DecidableEq

inductive Thread where
  | call (c : Call)
  | pass (p : Pass)
  | attempt (a : Attempt)
deriving DecidableEq

inductive Answer where
  | unbuilt
  | silent
  | response (code : Nat) (status : Bytes)
deriving DecidableEq

def Answer.text : Answer → Bytes
  | .response _ status => status
  | _ => []

structure Input where
  now : Time := 0
  later : Time := 0
  token : Bool := true
  cancelled : Bool := false
  appEngine : Bool := true
  answer : Answer := .silent
deriving DecidableEq

namespace Pass

variable (p : Pass)

def limitOf (s : Store) (queue : Bytes) : Int :=
  match s.queues[queue]? with
  | none => defaultConcurrentDispatches
  | some q => if 0 < q.maxConcurrentDispatches then q.maxConcurrentDispatches
    else defaultConcurrentDispatches

inductive Decision where
  | skip
  | force
  | claim
deriving DecidableEq

def decision (w : Worker) (t : Task) (limit : Int) (token : Bool) : Decision :=
  if t.runRequested ≠ 0 then
    if t.name ∈ w.inflight then .skip else .force
  else if t.name ∈ w.inflight ∨ limit ≤ w.perQueue t.queue then .skip
  else if token then .claim
  else .skip

def current (s : Store) (name : Bytes) (now : Time) : Option Task :=
  match s.tasks[name]? with
  | none => none
  | some t => if now ≠ 0 ∧ now < t.scheduleTime ∧ t.runRequested = 0 then none else some t

def next : Pass := { p with stage := .ready }

def advance (input : Input) (s : Server) : List Thread × Server :=
  match p.stage with
  | .listing =>
    ([.pass { p with now := input.now, due := s.store.dueTasks input.now, stage := .ready }], s)
  | .ready =>
    match p.due with
    | [] => ([], s)
    | t :: rest =>
      if input.cancelled then ([], s)
      else
        match p.limits.lookup t.queue with
        | none => ([.pass { p with limits := (t.queue, limitOf s.store t.queue) :: p.limits }], s)
        | some limit =>
          match decision s.worker t limit input.token with
          | .skip => ([.pass { p with due := rest }], s)
          | .force =>
            ([.pass { p with due := rest, stage := .marked t true }],
              { s with worker := s.worker.mark t })
          | .claim =>
            ([.pass { p with due := rest, stage := .marked t false }],
              { s with worker := s.worker.mark t })
  | .marked t true =>
    match current s.store t.name 0 with
    | none => ([.pass { p with stage := .dropping t }], s)
    | some fresh =>
      if fresh.runRequested ≠ t.runRequested then ([.pass { p with stage := .dropping t }], s)
      else ([.pass { p with stage := .taking fresh }], s)
  | .marked t false =>
    match current s.store t.name p.now with
    | none => ([.pass { p with stage := .dropping t }], s)
    | some fresh => ([.attempt ⟨fresh, .out⟩, .pass p.next], s)
  | .dropping t => ([.pass p.next], { s with worker := s.worker.release t })
  | .taking fresh =>
    ([.attempt ⟨{ fresh with runRequested := 0 }, .out⟩, .pass p.next],
      { s with store := s.store.takeRun fresh.name fresh.runRequested })

end Pass

namespace Attempt

def attemptStatus (code : Nat) : Nat :=
  if 200 ≤ code ∧ code < 300 then 0
  else if code = 400 then 3
  else if code = 401 then 16
  else if code = 403 then 7
  else if code = 404 then 5
  else if code = 409 then 10
  else if code = 429 then 8
  else if code = 499 then 1
  else if code = 501 then 12
  else if code = 503 then 14
  else if code = 504 then 4
  else if 400 ≤ code ∧ code < 500 then 9
  else 13

def succeeded (code : Nat) : Bool := decide (200 ≤ code) && decide (code < 300)

def dispatched (t : Task) (now : Time) : Task :=
  { t with
    firstAttempt := if t.firstAttempt = 0 then now else t.firstAttempt
    dispatchCount := t.dispatchCount + 1 }

def unanswered (t : Task) (now : Time) : Task :=
  { dispatched t now with lastAttempt := some ⟨t.scheduleTime, now, 0, 0, []⟩ }

def answered (t : Task) (code : Nat) (status : Bytes) (now later : Time) : Task :=
  { dispatched t now with
    responseCount := t.responseCount + 1
    lastResponseCode := code
    lastAttempt := some ⟨t.scheduleTime, now, later, attemptStatus code,
      if attemptStatus code = 0 then [] else status⟩ }

def settle (s : Server) (result : Except Refusal Store) : Server :=
  match result with
  | .ok store => { s with store := store }
  | .error _ => s

variable (a : Attempt)

def dispatch (input : Input) (s : Server) : List Thread × Server :=
  let task := a.task
  match task.appEngineHttpRequest.isSome && !input.appEngine, input.answer with
  | true, answer =>
    ([.attempt ⟨task, .failed⟩],
      settle s (s.store.updateTask (answered task 404 answer.text input.now input.later)))
  | false, .unbuilt => ([.attempt ⟨task, .failed⟩], s)
  | false, .silent =>
    ([.attempt ⟨task, .failed⟩], settle s (s.store.updateTask (unanswered task input.now)))
  | false, .response code status =>
    if succeeded code then
      match s.store.deleteTask task.name input.later with
      | .ok store => ([.attempt ⟨task, .over⟩], { s with store := store })
      | .error _ => ([.attempt ⟨task, .failed⟩], s)
    else
      ([.attempt ⟨task, .failed⟩],
        settle s (s.store.updateTask (answered task code status input.now input.later)))

def reschedule (input : Input) (s : Server) (current : Task) (retry : RetryConfig) : Server :=
  if retry.shouldRetryAfter current.dispatchCount (input.now - current.firstAttempt) then
    settle s (s.store.updateTask
      { current with scheduleTime := input.later + retry.delay current.dispatchCount })
  else settle s (s.store.deleteTask current.name input.later)

def advance (input : Input) (s : Server) : List Thread × Server :=
  match a.phase with
  | .out => a.dispatch input s
  | .failed =>
    match s.store.getTask a.task.name with
    | .ok current => ([.attempt ⟨a.task, .fetched current⟩], s)
    | .error _ => ([.attempt ⟨a.task, .over⟩], s)
  | .fetched current =>
    match s.store.getQueue current.queue with
    | .ok q => ([.attempt ⟨a.task, .judged current q.retryConfig.withDefaults⟩], s)
    | .error _ => ([.attempt ⟨a.task, .over⟩], s)
  | .judged current retry => ([.attempt ⟨a.task, .over⟩], reschedule input s current retry)
  | .over => ([], { s with worker := s.worker.release a.task })

end Attempt

def Thread.advance (input : Input) : Thread → Server → List Thread × Server
  | .call c, s => ([], Attempt.settle s (c.apply s.store input.now))
  | .pass p, s => p.advance input s
  | .attempt a, s => a.advance input s

def cloudTasks : Program Server Thread Input := ⟨Thread.advance⟩

def Thread.Begins : Thread → Prop
  | .call _ => True
  | .pass p => p = Pass.starting
  | .attempt _ => False

instance : DecidablePred Thread.Begins
  | .call _ => .isTrue trivial
  | .pass p => inferInstanceAs (Decidable (p = Pass.starting))
  | .attempt _ => .isFalse id

abbrev World := Sys Server Thread

def World.over (s : Store) : World := ⟨⟨s, Worker.idle⟩, []⟩

end CloudBurrow.Tasks
