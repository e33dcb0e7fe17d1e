import CloudBurrow.Process.Transaction
import CloudBurrow.Tasks.Queues

namespace CloudBurrow.Scheduler

open Utf8
open Tasks (Time slash hyphen hour validProjectID letterOrDigit lowerOrDigit contains)

inductive State where
  | enabled | paused
deriving DecidableEq

inductive HttpMethod where
  | unspecified | post | get | head | put | delete | patch | options
  | unrecognised (n : Int)
deriving DecidableEq

def HttpMethod.readBack : HttpMethod → HttpMethod
  | .unrecognised _ => .unspecified
  | m => m

def HttpMethod.orPost : HttpMethod → HttpMethod
  | .unspecified => .post
  | m => m

structure OIDCToken where
  serviceAccountEmail : Bytes
  audience : Bytes
deriving DecidableEq

structure OAuthToken where
  serviceAccountEmail : Bytes
  scope : Bytes
deriving DecidableEq

structure HTTPTarget where
  uri : Bytes
  method : HttpMethod
  headers : List (Bytes × Bytes)
  body : Bytes
  oidcToken : Option OIDCToken
  oauthToken : Option OAuthToken
deriving DecidableEq

structure PubSubTarget where
  topic : Bytes
  data : Bytes
  attributes : List (Bytes × Bytes)
deriving DecidableEq

structure AppEngineRouting where
  service : Bytes
  version : Bytes
  instance_ : Bytes
deriving DecidableEq

structure AppEngineTarget where
  method : HttpMethod
  relativeURI : Bytes
  headers : List (Bytes × Bytes)
  body : Bytes
  routing : AppEngineRouting
deriving DecidableEq

structure RetryConfig where
  retryCount : Int
  maxRetryDuration : Time
  minBackoff : Time
  maxBackoff : Time
  maxDoublings : Int
deriving DecidableEq

def defaultRetryConfig : RetryConfig := ⟨0, 0, 5 * Tasks.second, hour, 5⟩

structure Job where
  name : Bytes
  description : Bytes
  schedule : Bytes
  timeZone : Bytes
  state : State
  http : Option HTTPTarget
  pubSub : Option PubSubTarget
  appEngine : Option AppEngineTarget
  retry : RetryConfig
  retryUnset : Bool
  attemptDeadline : Time
  userUpdateTime : Time
  scheduleTime : Time
  lastAttemptTime : Time
  lastCode : Nat
  lastMessage : Bytes
  serial : Nat
deriving DecidableEq

inductive Refusal where
  | badZone (zone : Bytes)
  | zoneInSchedule (schedule : Bytes)
  | badSchedule (schedule : Bytes) (why : Bytes)
  | badJobName (name : Bytes)
  | noSchedule
  | badUri (uri : Bytes)
  | bodyNotAllowed (method : HttpMethod)
  | noOidcAccount
  | noOauthAccount
  | badTopic (topic : Bytes)
  | emptyMessage
  | badRelativeUri (uri : Bytes)
  | appEngineBody (method : HttpMethod)
  | noTarget
  | badRetryCount
  | badDeadline
  | badParent (parent : Bytes)
  | noJob
  | noName
  | notUnder (name parent : Bytes)
  | badPath (path : Bytes)
  | notFound (name : Bytes)
  | alreadyExists (name : Bytes)
deriving DecidableEq

structure Cron where
  loads : Bytes → Bool
  parses : Bytes → Except Bytes Unit
  next : Bytes → Bytes → Time → Time
  matching : Bytes → Bytes → Time → Prop
  next_matching : ∀ schedule zone t, next schedule zone t ≠ 0 →
    matching schedule zone (next schedule zone t)
  next_after : ∀ schedule zone t, next schedule zone t ≠ 0 → t < next schedule zone t

def nextRun (cron : Cron) (schedule zone : Bytes) (after : Time) : Except Refusal Time :=
  if zone = ascii "Local" then .error (.badZone zone)
  else if !cron.loads zone then .error (.badZone zone)
  else if (ascii "TZ=").isPrefixOf schedule || (ascii "CRON_TZ=").isPrefixOf schedule then
    .error (.zoneInSchedule schedule)
  else
    match cron.parses schedule with
    | .error why => .error (.badSchedule schedule why)
    | .ok () => .ok (cron.next schedule zone after)

theorem nextRun_ok {cron : Cron} {schedule zone : Bytes} {after t : Time}
    (h : nextRun cron schedule zone after = .ok t) : t = cron.next schedule zone after := by
  unfold nextRun at h
  split_ifs at h
  cases hp : cron.parses schedule with
  | error why =>
    rw [hp] at h
    cases h
  | ok u =>
    rw [hp] at h
    cases h
    rfl

def parentRE (parent : Bytes) : Bool :=
  match parent.splitOn slash with
  | [projects, project, locations, location] =>
    projects == ascii "projects" && validProjectID project && locations == ascii "locations" &&
      !location.isEmpty && location.all fun b => lowerOrDigit b || b == hyphen
  | _ => false

def jobIDRE (id : Bytes) : Bool :=
  decide (1 ≤ id.length) && decide (id.length ≤ 500) &&
    id.all fun b => letterOrDigit b || b == hyphen || b == 95

def parseJobName (name : Bytes) : Except Refusal Unit :=
  match name.splitOn slash with
  | [projects, project, locations, location, jobs, id] =>
    if parentRE (projects ++ slash :: project ++ slash :: locations ++ slash :: location) &&
        jobs == ascii "jobs" && jobIDRE id then .ok ()
    else .error (.badJobName name)
  | _ => .error (.badJobName name)

inductive Authorization where
  | oidcToken (serviceAccountEmail audience : Bytes)
  | oauthToken (serviceAccountEmail scope : Bytes)
deriving DecidableEq

inductive Target where
  | httpTarget (uri : Bytes) (httpMethod : HttpMethod) (headers : List (Bytes × Bytes))
      (body : Bytes) (authorization : Option Authorization)
  | pubsubTarget (topicName data : Bytes) (attributes : List (Bytes × Bytes))
  | appEngineHttpTarget (httpMethod : HttpMethod) (relativeUri : Bytes)
      (headers : List (Bytes × Bytes)) (body : Bytes) (routing : AppEngineRouting)
deriving DecidableEq

structure RetryMessage where
  retryCount : Int
  maxRetryDuration : Option Time
  minBackoffDuration : Option Time
  maxBackoffDuration : Option Time
  maxDoublings : Int
deriving DecidableEq

structure JobMessage where
  name : Bytes
  description : Bytes
  schedule : Bytes
  timeZone : Bytes
  target : Option Target
  retryConfig : Option RetryMessage
  attemptDeadline : Option Time
deriving DecidableEq

def positive (d : Option Time) (unset : Time) : Time :=
  match d with
  | some d => if 0 < d then d else unset
  | none => unset

def authorized (h : HTTPTarget) : Option Authorization → Except Refusal HTTPTarget
  | some (.oidcToken email audience) =>
    if email = [] then .error .noOidcAccount else .ok { h with oidcToken := some ⟨email, audience⟩ }
  | some (.oauthToken email scope) =>
    if email = [] then .error .noOauthAccount else .ok { h with oauthToken := some ⟨email, scope⟩ }
  | none => .ok h

def httpFromProto (uri : Bytes) (httpMethod : HttpMethod) (headers : List (Bytes × Bytes))
    (body : Bytes) (authorization : Option Authorization) : Except Refusal HTTPTarget :=
  if !(ascii "http://").isPrefixOf uri && !(ascii "https://").isPrefixOf uri then
    .error (.badUri uri)
  else if body ≠ [] ∧ httpMethod.orPost ∉ [.post, .put, .patch] then
    .error (.bodyNotAllowed httpMethod.orPost)
  else authorized ⟨uri, httpMethod.orPost, headers, body, none, none⟩ authorization

def pubsubFromProto (topic data : Bytes) (attributes : List (Bytes × Bytes)) : Except Refusal PubSubTarget :=
  if !(ascii "projects/").isPrefixOf topic || !contains (ascii "/topics/") topic then
    .error (.badTopic topic)
  else if data = [] ∧ attributes = [] then .error .emptyMessage
  else .ok ⟨topic, data, attributes⟩

def appEngineFromProto (httpMethod : HttpMethod) (relativeUri : Bytes)
    (headers : List (Bytes × Bytes)) (body : Bytes) (routing : AppEngineRouting) :
    Except Refusal AppEngineTarget :=
  let uri := if relativeUri = [] then [slash] else relativeUri
  if ¬ [slash] <+: uri then .error (.badRelativeUri uri)
  else if body ≠ [] ∧ httpMethod.orPost ∉ [.post, .put] then
    .error (.appEngineBody httpMethod.orPost)
  else .ok ⟨httpMethod.orPost, uri, headers, body, routing⟩

def targeted (j : Job) : Option Target → Except Refusal Job
  | some (.httpTarget uri method headers body authorization) => do
    let h ← httpFromProto uri method headers body authorization
    .ok { j with http := some h }
  | some (.pubsubTarget topic data attributes) => do
    let p ← pubsubFromProto topic data attributes
    .ok { j with pubSub := some p }
  | some (.appEngineHttpTarget method uri headers body routing) => do
    let a ← appEngineFromProto method uri headers body routing
    .ok { j with appEngine := some a }
  | none => .error .noTarget

def retryFromProto : Option RetryMessage → Except Refusal RetryConfig
  | none => .ok defaultRetryConfig
  | some rc =>
    if rc.retryCount < 0 ∨ 5 < rc.retryCount then .error .badRetryCount
    else .ok {
      retryCount := rc.retryCount
      maxRetryDuration := rc.maxRetryDuration.getD defaultRetryConfig.maxRetryDuration
      minBackoff := positive rc.minBackoffDuration defaultRetryConfig.minBackoff
      maxBackoff := positive rc.maxBackoffDuration defaultRetryConfig.maxBackoff
      maxDoublings := if 0 < rc.maxDoublings then rc.maxDoublings else defaultRetryConfig.maxDoublings }

def deadlineFromProto (d : Option Time) : Except Refusal Time :=
  let deadline := positive d (180 * Tasks.second)
  if deadline < 15 * Tasks.second ∨ 1800 * Tasks.second < deadline then .error .badDeadline else .ok deadline

def JobMessage.zone (p : JobMessage) : Bytes :=
  if p.timeZone = [] then ascii "Etc/UTC" else p.timeZone

def fromProto (p : JobMessage) : Except Refusal Job := do
  if p.schedule = [] then .error .noSchedule
  else
    let j : Job := {
      name := p.name, description := p.description, schedule := p.schedule, timeZone := p.zone,
      state := .enabled, http := none, pubSub := none, appEngine := none,
      retry := defaultRetryConfig, retryUnset := p.retryConfig.isNone, attemptDeadline := 180 * Tasks.second,
      userUpdateTime := 0, scheduleTime := 0, lastAttemptTime := 0, lastCode := 0, lastMessage := [],
      serial := 0 }
    let j ← targeted j p.target
    let retry ← retryFromProto p.retryConfig
    let deadline ← deadlineFromProto p.attemptDeadline
    .ok { j with retry := retry, attemptDeadline := deadline }

def HTTPTarget.authorization (h : HTTPTarget) : Option Authorization :=
  match h.oidcToken, h.oauthToken with
  | some t, _ => some (.oidcToken t.serviceAccountEmail t.audience)
  | none, some t => some (.oauthToken t.serviceAccountEmail t.scope)
  | none, none => none

def Job.target (j : Job) : Option Target :=
  match j.http, j.pubSub, j.appEngine with
  | some h, _, _ => some (.httpTarget h.uri h.method.readBack h.headers h.body h.authorization)
  | none, some p, _ => some (.pubsubTarget p.topic p.data p.attributes)
  | none, none, some a =>
    some (.appEngineHttpTarget a.method.readBack a.relativeURI a.headers a.body a.routing)
  | none, none, none => none

def toProto (j : Job) : JobMessage where
  name := j.name
  description := j.description
  schedule := j.schedule
  timeZone := j.timeZone
  target := j.target
  retryConfig :=
    if j.retryUnset then none
    else some ⟨j.retry.retryCount, some j.retry.maxRetryDuration, some j.retry.minBackoff,
      some j.retry.maxBackoff, j.retry.maxDoublings⟩
  attemptDeadline := some j.attemptDeadline

theorem targeted_ok {j j' : Job} {t : Option Target} (h : targeted j t = .ok j') : ∃ http pubSub appEngine,
      j' = { j with http := http, pubSub := pubSub, appEngine := appEngine } := by
  cases t with
  | none => cases h
  | some t =>
    cases t with
    | httpTarget uri method headers body authorization =>
      obtain ⟨p, -, h⟩ := Transaction.Txn.except_bind_ok h
      exact ⟨some p, j.pubSub, j.appEngine, (Except.ok.inj h).symm⟩
    | pubsubTarget topic data attributes =>
      obtain ⟨p, -, h⟩ := Transaction.Txn.except_bind_ok h
      exact ⟨j.http, some p, j.appEngine, (Except.ok.inj h).symm⟩
    | appEngineHttpTarget method uri headers body routing =>
      obtain ⟨p, -, h⟩ := Transaction.Txn.except_bind_ok h
      exact ⟨j.http, j.pubSub, some p, (Except.ok.inj h).symm⟩

theorem fromProto_ok {p : JobMessage} {j : Job} (h : fromProto p = .ok j) :
    j.name = p.name ∧ j.schedule = p.schedule ∧ j.timeZone = p.zone ∧ j.state = .enabled := by
  unfold fromProto at h
  split_ifs at h
  obtain ⟨j₁, ht, h⟩ := Transaction.Txn.except_bind_ok h
  obtain ⟨retry, -, h⟩ := Transaction.Txn.except_bind_ok h
  obtain ⟨deadline, -, h⟩ := Transaction.Txn.except_bind_ok h
  obtain ⟨http, pubSub, appEngine, rfl⟩ := targeted_ok ht
  cases h
  exact ⟨rfl, rfl, rfl, rfl⟩

structure CreateJobRequest where
  parent : Bytes
  job : Option JobMessage
deriving DecidableEq

def checkCreate (cron : Cron) (req : CreateJobRequest) (now : Time) : Except Refusal Job :=
  if !parentRE req.parent then .error (.badParent req.parent)
  else
    match req.job with
    | none => .error .noJob
    | some p =>
      if p.name = [] then .error .noName
      else do
        parseJobName p.name
        if !(req.parent ++ ascii "/jobs/").isPrefixOf p.name then .error (.notUnder p.name req.parent)
        else
          let j ← fromProto p
          let next ← nextRun cron j.schedule j.timeZone now
          .ok { j with userUpdateTime := now, scheduleTime := next }

theorem checkCreate_ok {cron : Cron} {req : CreateJobRequest} {now : Time} {j : Job}
    (h : checkCreate cron req now = .ok j) :
    ∃ p, req.job = some p ∧ j.name = p.name ∧ j.schedule = p.schedule ∧ j.timeZone = p.zone ∧
      j.state = .enabled ∧ j.scheduleTime = cron.next p.schedule p.zone now := by
  unfold checkCreate at h
  split_ifs at h
  cases hjob : req.job with
  | none =>
    rw [hjob] at h
    cases h
  | some p =>
    rw [hjob] at h
    change (if p.name = [] then Except.error Refusal.noName else _) = Except.ok j at h
    by_cases hname : p.name = []
    · rw [if_pos hname] at h
      cases h
    rw [if_neg hname] at h
    obtain ⟨-, -, h⟩ := Transaction.Txn.except_bind_ok h
    split_ifs at h
    obtain ⟨j₁, hj, h⟩ := Transaction.Txn.except_bind_ok h
    obtain ⟨next, hnext, h⟩ := Transaction.Txn.except_bind_ok h
    obtain ⟨hname, hschedule, hzone, hstate⟩ := fromProto_ok hj
    cases h
    exact ⟨p, rfl, hname, hschedule, hzone, hstate, by rw [nextRun_ok hnext, hschedule, hzone]⟩

end CloudBurrow.Scheduler
