import CloudBurrow.Storage.Selector
import CloudBurrow.Storage.Tx

namespace CloudBurrow.Storage

open Utf8 JsonText Transaction

namespace Tx

def values (k : Kind) (start : Bytes) : Action (List (Val k)) :=
  .read fun tx => tx.store.values k start

end Tx

def ChannelRecord.expired (c : ChannelRecord) (now : Time) : Bool :=
  c.expiration != 0 && decide (c.expiration ≤ unixMilli now)

def channelKey (bucket resourceId : Bytes) : Bytes := objectKey bucket resourceId

def channelsOf (bucket : Bytes) : Action (List ChannelRecord) := do
  let out : List ChannelRecord ← Tx.values .channel (objectKey bucket [])
  pure (out.insertionSort fun a b => a.created ≤ b.created)

def queueChannelMessage (c : ChannelRecord) (state : ChannelState) (o : Option ObjectRecord)
    (now : Time) : Action Unit := do
  let c := { c with next := c.next + 1 }
  let m : ChannelMessage :=
    { channel := channelKey c.bucket c.resourceId, number := c.next, state,
      object := o.map ObjectRecord.recode }
  let key ← outboxKey now
  Tx.put .chanout key m
  Tx.put .channel (channelKey c.bucket c.resourceId) c

def removeChannel (c : ChannelRecord) : Action Unit := do
  let key := channelKey c.bucket c.resourceId
  Tx.delete .channel key
  let out ← Tx.list .chanout []
  Txn.forEach out fun k => do
    let m : Option ChannelMessage ← Tx.get .chanout k
    if m.any fun m => m.channel = key then Tx.delete .chanout k else pure ()

def ChannelRecord.watches (c : ChannelRecord) (ev : ObjectEvent) : Bool :=
  let sel := { c.select with namePrefix := c.namePrefix }
  if !sel.selects ev.object.name then false
  else if c.versions then true
  else if (ev.type = .delete ∨ ev.type = .archive) ∧ ev.overwrittenBy ≠ 0 then false
  else decide (ev.type = .archive) || decide (ev.object.deleted = 0)

def EventType.state : EventType → ChannelState
  | .delete => .notExists
  | .archive => .notExists
  | .finalize => .exists
  | .metadataUpdate => .exists

def emitChannels (ev : ObjectEvent) : Action Unit := do
  let channels ← channelsOf ev.object.bucket
  Txn.forEach channels fun c =>
    if c.expired ev.time then removeChannel c
    else if c.watches ev then queueChannelMessage c ev.type.state (some ev.object) ev.time
    else pure ()

def EventType.text : EventType → Bytes
  | .finalize => ascii "OBJECT_FINALIZE"
  | .delete => ascii "OBJECT_DELETE"
  | .archive => ascii "OBJECT_ARCHIVE"
  | .metadataUpdate => ascii "OBJECT_METADATA_UPDATE"

def PayloadFormat.text : PayloadFormat → Bytes
  | .jsonApiV1 => ascii "JSON_API_V1"
  | .none => ascii "NONE"

def NotificationConfig.matches (c : NotificationConfig) (type : EventType) (name : Bytes) : Bool :=
  if c.namePrefix ≠ [] ∧ !c.namePrefix.isPrefixOf name then false
  else c.eventTypes.isEmpty || decide (type ∈ c.eventTypes)

def NotificationEntry.config? : NotificationEntry → Option NotificationConfig
  | .config c => some c
  | .counter _ => none

def notificationsOf (bucket : Bytes) : Action (List NotificationConfig) := do
  let out : List NotificationEntry ← Tx.values .notification (objectKey bucket [])
  pure ((out.filterMap NotificationEntry.config?).insertionSort fun a b => a.id ≤ b.id)

def setAttribute (attrs : List (Bytes × Bytes)) (kv : Bytes × Bytes) : List (Bytes × Bytes) :=
  attrs.filter (fun p => p.1 ≠ kv.1) ++ [kv]

def ObjectEvent.attributes (ev : ObjectEvent) (c : NotificationConfig) : List (Bytes × Bytes) :=
  [(ascii "notificationConfig",
      ascii "projects/_/buckets/" ++ c.bucket ++ ascii "/notificationConfigs/" ++ decimal c.id),
    (ascii "eventType", ev.type.text),
    (ascii "payloadFormat", c.format.text),
    (ascii "bucketId", ev.object.bucket),
    (ascii "objectId", ev.object.name),
    (ascii "objectGeneration", integer ev.object.generation),
    (ascii "eventTime", rfc3339Nano ev.time)] ++
  (if ev.overwrote ≠ 0 then [(ascii "overwroteGeneration", integer ev.overwrote)] else []) ++
  (if ev.overwrittenBy ≠ 0 then [(ascii "overwrittenByGeneration", integer ev.overwrittenBy)]
    else [])

def outboxEntry (c : NotificationConfig) (ev : ObjectEvent) : OutboxEntry :=
  { topic := c.topic
    attributes := (ev.attributes c).foldl setAttribute c.attributes
    object := if c.format = .jsonApiV1 then some ev.object else none }

def OutboxEntry.recode (e : OutboxEntry) : OutboxEntry :=
  { e with
    topic := toValid e.topic
    attributes := e.attributes.map fun p => (toValid p.1, toValid p.2)
    object := e.object.map ObjectRecord.recode }

def emit (ev : ObjectEvent) : Action Unit := do
  emitChannels ev
  let configs ← notificationsOf ev.object.bucket
  Txn.forEach configs fun c =>
    if c.matches ev.type ev.object.name then do
      let key ← outboxKey ev.time
      Tx.put .outbox key (outboxEntry c ev).recode
    else pure ()

def notifyKinds : List Kind := [.channel, .chanout, .outbox]

theorem runs_removeChannel (c : ChannelRecord) : Runs (Beside notifyKinds) (removeChannel c) := by
  refine runs_bind (runs_delete (by decide) _) fun _ => ?_
  refine runs_bind (runs_list _ _) fun out => ?_
  refine runs_forEach out fun k _ => ?_
  refine runs_bind (runs_get _ _) fun m => ?_
  split_ifs
  · exact runs_delete (by decide) _
  · exact runs_pure ()

theorem runs_queueChannelMessage (c : ChannelRecord) (state : ChannelState)
    (o : Option ObjectRecord) (now : Time) :
    Runs (Beside notifyKinds) (queueChannelMessage c state o now) := by
  refine runs_bind (runs_outboxKey now) fun key => ?_
  refine runs_bind (runs_put (by decide) _ _) fun _ => ?_
  exact runs_put (by decide) _ _

theorem runs_emitChannels (ev : ObjectEvent) : Runs (Beside notifyKinds) (emitChannels ev) := by
  refine runs_bind (runs_bind (runs_read _) fun out => runs_pure _) fun channels => ?_
  refine runs_forEach channels fun c _ => ?_
  split_ifs
  · exact runs_removeChannel c
  · exact runs_queueChannelMessage c _ _ _
  · exact runs_pure ()

theorem runs_emit (ev : ObjectEvent) : Runs (Beside notifyKinds) (emit ev) := by
  refine runs_bind (runs_emitChannels ev) fun _ => ?_
  refine runs_bind (runs_bind (runs_read _) fun out => runs_pure _) fun configs => ?_
  refine runs_forEach configs fun c _ => ?_
  split_ifs
  · exact runs_bind (runs_outboxKey _) fun key => runs_put (by decide) _ _
  · exact runs_pure ()

end CloudBurrow.Storage
