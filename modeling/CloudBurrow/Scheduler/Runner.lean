import CloudBurrow.Process.Threads
import CloudBurrow.Scheduler.Jobs

namespace CloudBurrow.Scheduler

open Utf8 Threads
open Tasks (Time slash)

def tilde : UInt8 := 126

def keyPrefix : Bytes := ascii "scheduler/jobs/"

def key (name : Bytes) : Bytes := keyPrefix ++ name.map fun b => if b = slash then tilde else b

structure Store where
  jobs : Std.ExtTreeMap Bytes Job
  created : Nat
  keyed : ∀ (k : Bytes) (j : Job), jobs[k]? = some j → key j.name = k

namespace Store

def empty : Store := ⟨∅, 0, by simp⟩

variable (s : Store)

def under (name : Bytes) : Option Job := s.jobs[key name]?

def get (name : Bytes) : Except Refusal Job :=
  match s.under name with
  | none => .error (.notFound name)
  | some j => .ok j

def put (j : Job) : Store where
  jobs := s.jobs.insert (key j.name) j
  created := s.created
  keyed := by
    intro k j' hj'
    rw [Std.ExtTreeMap.getElem?_insert] at hj'
    split_ifs at hj' with heq
    · cases hj'
      exact Std.LawfulEqCmp.eq_of_compare heq
    · exact s.keyed k j' hj'

def create (j : Job) : Except Refusal Store :=
  match s.under j.name with
  | some _ => .error (.alreadyExists j.name)
  | none => .ok { s.put { j with serial := s.created } with created := s.created + 1 }

def update (name : Bytes) (fn : Job → Except Refusal Job) : Except Refusal Store := do
  let j ← s.get name
  let j' ← fn j
  .ok (s.put j')

def without (name : Bytes) : Store where
  jobs := s.jobs.erase (key name)
  created := s.created
  keyed := by
    intro k j hj
    rw [Std.ExtTreeMap.getElem?_erase] at hj
    split_ifs at hj
    exact s.keyed k j hj

def delete (name : Bytes) : Except Refusal Store := do
  let _ ← s.get name
  .ok (s.without name)

def list : List Job := (s.jobs.toList.map Prod.snd).insertionSort fun a b => a.name ≤ b.name

end Store

structure Server where
  store : Store
  inflight : Finset Bytes

inductive Call where
  | createJob (req : CreateJobRequest)
  | updateJob (job : Option JobMessage) (paths : List Bytes)
  | pauseJob (name : Bytes)
  | resumeJob (name : Bytes)
  | deleteJob (name : Bytes)
deriving DecidableEq

def mask (job merged : JobMessage) (path : Bytes) : Except Refusal JobMessage :=
  if path = ascii "description" then .ok { merged with description := job.description }
  else if path = ascii "schedule" then .ok { merged with schedule := job.schedule }
  else if path = ascii "time_zone" then .ok { merged with timeZone := job.timeZone }
  else if path = ascii "target" || (ascii "http_target").isPrefixOf path ||
      (ascii "pubsub_target").isPrefixOf path || (ascii "app_engine_http_target").isPrefixOf path then
    .ok { merged with target := job.target }
  else if path = ascii "retry_config" || (ascii "retry_config.").isPrefixOf path then
    .ok { merged with retryConfig := job.retryConfig }
  else if path = ascii "attempt_deadline" then
    .ok { merged with attemptDeadline := job.attemptDeadline }
  else .error (.badPath path)

def settable : List Bytes :=
  [ascii "description", ascii "schedule", ascii "time_zone", ascii "target", ascii "retry_config",
    ascii "attempt_deadline"]

def mergedWith (job : JobMessage) (paths : List Bytes) (cur : Job) : Except Refusal JobMessage :=
  (if paths = [] then settable else paths).foldlM (mask job) (toProto cur)

def updated (cron : Cron) (job : JobMessage) (paths : List Bytes) (now : Time) (cur : Job) :
    Except Refusal Job := do
  let merged ← mergedWith job paths cur
  let next ← fromProto merged
  let scheduleTime ← nextRun cron next.schedule next.timeZone now
  .ok { next with
    state := cur.state, lastAttemptTime := cur.lastAttemptTime, lastCode := cur.lastCode,
    lastMessage := cur.lastMessage, userUpdateTime := now, scheduleTime := scheduleTime,
    serial := cur.serial }

def paused (cur : Job) : Except Refusal Job := .ok { cur with state := .paused }

def resumed (cron : Cron) (now : Time) (cur : Job) : Except Refusal Job :=
  if cur.state = .enabled then .ok cur
  else do
    let next ← nextRun cron cur.schedule cur.timeZone now
    .ok { cur with state := .enabled, scheduleTime := next }

def Call.apply (cron : Cron) (s : Store) (now : Time) : Call → Except Refusal Store
  | .createJob req => do
    let j ← checkCreate cron req now
    s.create j
  | .updateJob none _ => .error .noJob
  | .updateJob (some job) paths => s.update job.name (updated cron job paths now)
  | .pauseJob name => s.update name paused
  | .resumeJob name => s.update name (resumed cron now)
  | .deleteJob name => s.delete name

inductive Tick where
  | listing
  | ready (now : Time) (jobs : List Job)
  | firing (now : Time) (j : Job) (rest : List Job)
deriving DecidableEq

inductive Phase where
  | starting | out | waiting | ended
deriving DecidableEq

structure Delivery where
  job : Job
  scheduled : Time
  start : Time
  attempt : Nat
  phase : Phase
deriving DecidableEq

inductive Thread where
  | call (c : Call)
  | runJob (name : Bytes)
  | launching (j : Job)
  | tick (t : Tick)
  | delivery (d : Delivery)
deriving DecidableEq

inductive Answer where
  | failed (message : Bytes)
  | status (code : Nat)
deriving DecidableEq

structure Input where
  now : Time := 0
  later : Time := 0
  cancelled : Bool := false
  publisher : Bool := true
  appEngine : Bool := true
  answer : Answer := .status 200
deriving DecidableEq

def projectOf (name : Bytes) : Bytes :=
  match name.splitOn slash with
  | _ :: project :: _ => project
  | _ => []

def appEngineHost (project : Bytes) (r : AppEngineRouting) : Bytes :=
  [r.service, r.version, r.instance_].foldl
    (fun host part => if part = [] then host else part ++ ascii "." ++ host)
    (project ++ ascii ".appspot.com")

def answered (target : Bytes) : Answer → Option (Nat × Bytes)
  | .failed message => some (2, message)
  | .status code =>
    if 200 ≤ code ∧ code ≤ 299 then none
    else some (2, target ++ ascii " returned HTTP " ++ ascii (toString code))

def attempt (input : Input) (j : Job) : Option (Nat × Bytes) :=
  match j.pubSub, j.http, j.appEngine with
  | some _, _, _ =>
    if !input.publisher then
      some (2, ascii "Pub/Sub is not enabled on this instance, so " ++ j.name ++ ascii " cannot publish")
    else
      match input.answer with
      | .failed message => some (2, message)
      | .status _ => none
  | none, some h, _ => answered h.uri input.answer
  | none, none, some a =>
    let host := appEngineHost (projectOf j.name) a.routing
    if !input.appEngine then
      some (5, ascii "HTTP 404: App Engine is not available on this CloudBurrow instance, so no app serves https://" ++
        host ++ a.relativeURI)
    else answered (host ++ a.relativeURI) input.answer
  | none, none, none => some (2, ascii "job " ++ j.name ++ ascii " has no target")

def fire (j : Job) (scheduled : Time) (s : Server) : List Thread × Server :=
  if j.name ∈ s.inflight then ([], s)
  else ([.delivery ⟨j, scheduled, 0, 1, .starting⟩], { s with inflight := insert j.name s.inflight })

def settle (s : Server) : Except Refusal Store → Server
  | .ok store => { s with store := store }
  | .error _ => s

def Job.due (now : Time) (j : Job) : Bool := decide (j.state = .enabled) && decide (j.scheduleTime ≤ now)

def advanced (next : Time) (cur : Job) : Except Refusal Job := .ok { cur with scheduleTime := next }

def Tick.advance (cron : Cron) (input : Input) (s : Server) : Tick → List Thread × Server
  | .listing => ([.tick (.ready input.now s.store.list)], s)
  | .ready _ [] => ([], s)
  | .ready now (j :: rest) =>
    if !j.due now then ([.tick (.ready now rest)], s)
    else
      match nextRun cron j.schedule j.timeZone now with
      | .error _ => ([.tick (.ready now rest)], s)
      | .ok next =>
        match s.store.update j.name (advanced next) with
        | .error _ => ([.tick (.ready now rest)], s)
        | .ok store => ([.tick (.firing now j rest)], { s with store := store })
  | .firing now j rest =>
    let fired := fire j j.scheduleTime s
    (.tick (.ready now rest) :: fired.1, fired.2)

namespace Delivery

variable (d : Delivery)

def backoff : Tasks.RetryConfig :=
  Tasks.RetryConfig.withDefaults
    ⟨d.job.retry.retryCount + 1, d.job.retry.minBackoff, d.job.retry.maxBackoff,
      d.job.retry.maxDoublings, 0⟩

def recorded (now : Time) (outcome : Option (Nat × Bytes)) (cur : Job) : Except Refusal Job :=
  .ok { cur with
    lastAttemptTime := now
    lastCode := (outcome.getD (0, [])).1
    lastMessage := (outcome.getD (0, [])).2 }

def retries (input : Input) (outcome : Option (Nat × Bytes)) : Bool :=
  outcome.isSome && d.backoff.shouldRetry d.attempt &&
    !(decide (0 < d.job.retry.maxRetryDuration) &&
      decide (d.job.retry.maxRetryDuration ≤ input.later - d.start))

def advance (input : Input) (s : Server) : List Thread × Server :=
  match d.phase with
  | .starting => ([.delivery { d with start := input.now, phase := .out }], s)
  | .out =>
    let outcome := Scheduler.attempt input d.job
    ([.delivery { d with phase := if d.retries input outcome then .waiting else .ended }],
      settle s (s.store.update d.job.name (recorded input.now outcome)))
  | .waiting =>
    if input.cancelled then ([.delivery { d with phase := .ended }], s)
    else ([.delivery { d with attempt := d.attempt + 1, phase := .out }], s)
  | .ended => ([], { s with inflight := s.inflight.erase d.job.name })

end Delivery

def Thread.advance (cron : Cron) (input : Input) : Thread → Server → List Thread × Server
  | .call c, s => ([], settle s (c.apply cron s.store input.now))
  | .runJob name, s =>
    match s.store.get name with
    | .error _ => ([], s)
    | .ok j => ([.launching j], s)
  | .launching j, s => fire j input.now s
  | .tick t, s => t.advance cron input s
  | .delivery d, s => d.advance input s

def cloudScheduler (cron : Cron) : Program Server Thread Input := ⟨Thread.advance cron⟩

abbrev World := Sys Server Thread

def World.over (s : Store) : World := ⟨⟨s, ∅⟩, []⟩

def Thread.isTick : Thread → Bool
  | .tick _ => true
  | _ => false

def Begins (w : World) : Thread → Prop
  | .call _ => True
  | .runJob _ => True
  | .tick t => t = .listing ∧ ∀ l ∈ w.threads, l.isTick = false
  | .launching _ => False
  | .delivery _ => False

instance (w : World) : DecidablePred (Begins w)
  | .call _ => .isTrue trivial
  | .runJob _ => .isTrue trivial
  | .tick _ => inferInstanceAs (Decidable (_ ∧ _))
  | .launching _ => .isFalse id
  | .delivery _ => .isFalse id

def Under (rule : Input → World → Thread → Prop) : Move Thread Input → World → Prop
  | .enter l, w => Begins w l
  | .step i input, w => ∀ l ∈ w.threads[i]?, rule input w l

instance (rule : Input → World → Thread → Prop) [∀ input w l, Decidable (rule input w l)] :
    ∀ m w, Decidable (Under rule m w)
  | .enter l, w => inferInstanceAs (Decidable (Begins w l))
  | .step i input, w => inferInstanceAs (Decidable (∀ l ∈ w.threads[i]?, rule input w l))

end CloudBurrow.Scheduler
