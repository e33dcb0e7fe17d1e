import CloudBurrow.Storage.Tx

namespace CloudBurrow.Storage

open Utf8

def retentionStart (o : ObjectRecord) : Time :=
  if o.retentionFrom ≠ 0 then o.retentionFrom else o.created

def holdError : HttpError :=
  errorf 403 "objectUnderActiveHold"
    (ascii "Object replacement or deletion is not allowed due to an active hold on the object.")

def retentionError (o : ObjectRecord) (retainUntil : Time) : HttpError :=
  errorf 403 "retentionPolicyNotMet"
    (ascii "Object '" ++ objectKey o.bucket o.name ++
      ascii "' is under retention and cannot be replaced or deleted until " ++
      rfc3339 retainUntil ++ ascii ".")

def protect (b : BucketRecord) (o : ObjectRecord) (now : Time) (keptNoncurrent : Bool) : Option HttpError :=
  if o.temporaryHold || o.eventBasedHold then some holdError
  else if keptNoncurrent then none
  else if 0 < b.retentionPeriod ∧ now < retentionStart o + b.retentionPeriod then
    some (retentionError o (retentionStart o + b.retentionPeriod))
  else match o.retention with
    | some r => if now < r.retainUntil then some (retentionError o r.retainUntil) else none
    | none => none

def Held (o : ObjectRecord) : Prop := o.temporaryHold = true ∨ o.eventBasedHold = true

def Retained (b : BucketRecord) (o : ObjectRecord) (now : Time) : Prop :=
  (0 < b.retentionPeriod ∧ now < retentionStart o + b.retentionPeriod) ∨
    ∃ r ∈ o.retention, now < r.retainUntil

def Protected (b : BucketRecord) (o : ObjectRecord) (now : Time) : Prop :=
  Held o ∨ Retained b o now

theorem protect_eq_none {b : BucketRecord} {o : ObjectRecord} {now : Time} {kept : Bool} :
    protect b o now kept = none ↔ ¬ Held o ∧ (kept = true ∨ ¬ Retained b o now) := by
  unfold protect Held Retained
  cases o.temporaryHold with
  | true => simp
  | false =>
    cases o.eventBasedHold with
    | true => simp
    | false =>
      cases kept with
      | true => simp
      | false =>
        by_cases hp : 0 < b.retentionPeriod ∧ now < retentionStart o + b.retentionPeriod
        · simp [hp]
        · cases o.retention <;> simp [hp]

theorem protect_false_eq_none {b : BucketRecord} {o : ObjectRecord} {now : Time} :
    protect b o now false = none ↔ ¬ Protected b o now := by
  rw [protect_eq_none, Protected]
  simp

def flag (k : String) (value : Field (Option Bool)) (replace current : Bool) : Except HttpError Bool :=
  match value with
  | .absent => .ok (if replace then false else current)
  | .null => .ok false
  | .value none => .error (badRequest (ascii "Invalid argument: " ++ ascii k ++
      ascii " must be a boolean"))
  | .value (some b) => .ok b

def nextRetention (value : Field RetentionValue) (now : Time) : Except HttpError (Option ObjectRetention) :=
  match value with
  | .absent => .ok none
  | .null => .ok none
  | .value .emptyObject => .ok none
  | .value (.config (some mode) text (some t)) =>
    if now < t then .ok (some { mode, retainUntil := t })
    else .error (errorf 400 "invalid" (ascii "The retainUntilTime " ++ text ++
      ascii " is not in the future."))
  | .value (.config _ _ _) => .error (errorf 400 "invalid" (ascii
      "A retention configuration needs mode Unlocked or Locked and an RFC 3339 retainUntilTime."))
  | .value .notObject => .error (badRequest (ascii
      "Invalid argument: retention must be an object"))

def forbidden (message : String) : HttpError := errorf 403 "forbidden" (ascii message)

def retentionChange (old next : Option ObjectRetention) (override : Bool) : Option HttpError :=
  match old with
  | none => none
  | some old =>
    let loosens := match next with
      | none => true
      | some next => before next.retainUntil old.retainUntil
    let locks := next.any fun next => next.mode = .locked
    if old.mode = .locked then
      if loosens || !locks then
        some (forbidden "A Locked retention configuration can only be extended.")
      else none
    else if (loosens || locks) && !override then
      some (forbidden "Removing, shortening or locking an Unlocked retention configuration needs overrideUnlockedRetention=true.")
    else none

def retentionAndHold : HttpError :=
  errorf 400 "invalid" (ascii
    "An object cannot have a retention configuration and an event-based hold at the same time.")

def changedRetention (o old : ObjectRecord) (body : ProtectionBody) (replace override : Bool)
    (now : Time) : Except HttpError (Option ObjectRetention) :=
  if body.retention = .absent ∧ replace = false then .ok o.retention
  else match nextRetention body.retention now with
    | .error e => .error e
    | .ok next =>
      match retentionChange old.retention next override with
      | some e => .error e
      | none => .ok next

def applyProtection (o old : ObjectRecord) (body : ProtectionBody) (replace override : Bool)
    (now : Time) : Except HttpError ObjectRecord := do
  let temporaryHold ← flag "temporaryHold" body.temporaryHold replace o.temporaryHold
  let eventBasedHold ← flag "eventBasedHold" body.eventBasedHold replace o.eventBasedHold
  let retention ← changedRetention o old body replace override now
  if retention.isSome && eventBasedHold then .error retentionAndHold
  else .ok { o with
    temporaryHold, eventBasedHold, retention,
    retentionFrom := if old.eventBasedHold && !eventBasedHold then now else o.retentionFrom }

def noObjectRetention (bucket : Bytes) : HttpError :=
  errorf 400 "invalid" (ascii "The bucket " ++ bucket ++
    ascii " does not have object retention enabled.")

def checkNewObject (b : BucketRecord) (o : ObjectRecord) : Except HttpError ObjectRecord :=
  let o := if b.defaultEventBasedHold then { o with eventBasedHold := true } else o
  if o.retention.isSome && !b.objectRetentionEnabled then .error (noObjectRetention b.name)
  else if o.retention.isSome && o.eventBasedHold then .error retentionAndHold
  else .ok o

def fresh (o : ObjectRecord) : ObjectRecord :=
  { o with temporaryHold := false, eventBasedHold := false, retention := none, retentionFrom := 0 }

end CloudBurrow.Storage
