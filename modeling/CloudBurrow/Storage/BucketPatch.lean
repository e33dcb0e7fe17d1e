import CloudBurrow.Storage.Buckets
import CloudBurrow.Storage.SoftRetention

namespace CloudBurrow.Storage.Fields

open Utf8 JsonText ParseInt JsonDoc Transaction

def asObject : Option Doc → Members
  | some v => v.members
  | none => []

mutual

def mergePatch : Members → Members → Members
  | target, [] => target
  | target, (k, v) :: patch => mergePatch (mergeField target k v) patch

def mergeField : Members → Bytes → Doc → Members
  | target, k, .null => target.delete k
  | target, k, .obj p => target.set k (.obj (mergePatch (asObject (target.get k)) p))
  | target, k, v => target.set k v

end

section Merging

def mergeValue (old : Option Doc) : Doc → Option Doc
  | .null => none
  | .obj p => some (.obj (mergePatch (asObject old) p))
  | v => some v

theorem get_mergeField (target : Members) (k k' : Bytes) (v : Doc) : (mergeField target k v).get k' =
      if k' = k then mergeValue (target.get k) v else target.get k' := by
  cases v <;> simp only [mergeField, mergeValue, Members.get_set, Members.get_delete]

theorem get_mergePatch {patch : Members} (hpatch : (patch.map Prod.fst).Nodup) (target : Members)
    (k : Bytes) :
    (mergePatch target patch).get k =
      match patch.get k with
      | none => target.get k
      | some v => mergeValue (target.get k) v := by
  induction patch generalizing target with
  | nil => rfl
  | cons e patch ih =>
    obtain ⟨j, w⟩ := e
    rw [List.map_cons, List.nodup_cons] at hpatch
    rw [mergePatch, ih hpatch.2, get_mergeField, Members.get]
    by_cases hk : k = j
    · subst hk
      rw [Members.get_eq_none hpatch.1, if_pos rfl, if_pos rfl]
    · rw [if_neg hk, if_neg hk]

theorem denote_asObject (old : Option Doc) (k : Bytes) :
    ((asObject old).get k).map Doc.denote = ((old.map Doc.denote).getD .null).fields k := by
  cases old with
  | none => rfl
  | some v =>
    cases v with
    | obj m => exact (Doc.denoteMembers_eq m k).symm
    | null | bool b | num x | str s | arr items => rfl

mutual

theorem denote_mergeValue (old : Option Doc) : (v : Doc) → v.Distinct →
    (mergeValue old v).map Doc.denote = Tree.mergeMember (old.map Doc.denote) (some v.denote)
  | .null, _ => rfl
  | .bool _, _ => rfl
  | .num _, _ => rfl
  | .str _, _ => rfl
  | .arr _, _ => rfl
  | .obj p, hp => by
    simp only [mergeValue, Option.map_some, Doc.denote, Tree.mergeMember, Tree.mergePatch,
      Option.some.injEq, Tree.obj.injEq]
    funext k
    have hmember := denote_member p hp.2 k
    rw [Doc.denoteMembers_eq, Doc.denoteMembers_eq, get_mergePatch hp.1, ← denote_asObject]
    cases hk : Members.get p k with
    | none => rfl
    | some v => exact hmember v hk _

theorem denote_member : (p : List (Bytes × Doc)) → Doc.DistinctMembers p → ∀ k v,
    Members.get p k = some v → ∀ old : Option Doc,
      (mergeValue old v).map Doc.denote = Tree.mergeMember (old.map Doc.denote) (some v.denote)
  | [], _ => fun _ _ h => nomatch h
  | (j, w) :: p, hp => fun k v h old => by
    by_cases hk : k = j
    · rw [Members.get, if_pos hk, Option.some.injEq] at h
      exact h ▸ denote_mergeValue old w hp.1
    · rw [Members.get, if_neg hk] at h
      exact denote_member p hp.2 k v h old

end

structure JsonObject where
  members : Members
  distinct : (Doc.obj members).Distinct

theorem denote_mergePatch (target : Members) (patch : JsonObject) :
    (Doc.obj (mergePatch target patch.members)).denote =
      Tree.mergePatch (Doc.obj target).denote (Doc.obj patch.members).denote := by
  have h := denote_mergeValue (some (.obj target)) (.obj patch.members) patch.distinct
  simpa [mergeValue, asObject, Doc.members, Doc.denote, Tree.mergeMember] using h

theorem denote_mergePatch_twice (target : Members) (patch : JsonObject) :
    (Doc.obj (mergePatch (mergePatch target patch.members) patch.members)).denote =
      (Doc.obj (mergePatch target patch.members)).denote := by
  rw [denote_mergePatch, denote_mergePatch, Tree.mergePatch_idem]

end Merging

inductive How where
  | kept | stored | output | acl
deriving DecidableEq

def bucketFieldTable : List (String × How) :=
  [("location", .kept), ("storageClass", .kept), ("labels", .kept), ("versioning", .kept),
    ("defaultEventBasedHold", .kept), ("softDeletePolicy", .kept), ("retentionPolicy", .kept),
    ("lifecycle", .kept), ("cors", .kept),
    ("website", .stored), ("logging", .stored), ("encryption", .stored), ("billing", .stored),
    ("iamConfiguration", .stored), ("rpo", .stored), ("autoclass", .stored),
    ("customPlacementConfig", .stored), ("hierarchicalNamespace", .kept),
    ("etag", .output), ("generation", .output), ("hardDeleteTime", .output), ("id", .output),
    ("kind", .output), ("locationType", .output), ("metageneration", .output),
    ("projectNumber", .output), ("selfLink", .output), ("softDeleteTime", .output),
    ("timeCreated", .output), ("updated", .output), ("owner", .output), ("satisfiesPZI", .output),
    ("satisfiesPZS", .output), ("name", .output), ("objectRetention", .output),
    ("ipFilter", .kept), ("acl", .acl), ("defaultObjectAcl", .acl)]

def bucketFields (k : Bytes) : Option How :=
  (bucketFieldTable.find? fun e => ascii e.1 = k).map Prod.snd

def storedObjects : List String :=
  ["website", "logging", "encryption", "billing", "iamConfiguration", "autoclass",
    "customPlacementConfig", "hierarchicalNamespace", "ipFilter"]

def storageClasses : List String :=
  ["STANDARD", "NEARLINE", "COLDLINE", "ARCHIVE", "MULTI_REGIONAL", "REGIONAL",
    "DURABLE_REDUCED_AVAILABILITY", "RAPID"]

def invalidArgument (text : Bytes) : HttpError := badRequest (ascii "Invalid argument: " ++ text)

def checkBucketFields (body : Members) : Option HttpError :=
  ((body.map Prod.fst).mergeSort.find? fun k => (bucketFields k).isNone).map fun k =>
    invalidArgument (k ++ ascii " is not a Bucket field")

def kept (body : Members) : Members :=
  body.filter fun e => bucketFields e.1 = some .kept ∨ bucketFields e.1 = some .stored

def valueAt (f : Members) (k : String) : Option Doc :=
  match f.get (ascii k) with
  | some .null => none
  | v => v

def stringOf : Option Doc → Bytes
  | some (.str s) => s
  | _ => []

def stringAt (f : Members) (k : String) : Bytes := stringOf (f.get (ascii k))

def isTrue (v : Option Doc) : Bool :=
  match v with
  | some (.bool b) => b
  | _ => false

def isObject : Doc → Bool
  | .obj _ => true
  | _ => false

def isString : Doc → Bool
  | .str _ => true
  | _ => false

def isBool : Doc → Bool
  | .bool _ => true
  | _ => false

def dataLocations (v : Option Doc) : List Bytes :=
  match (asObject v).get (ascii "dataLocations") with
  | some (.arr items) => items.map fun item => toUpper (stringOf (some item))
  | _ => []

def hierarchical (f : Members) : Bool := isTrue (fieldAt f "hierarchicalNamespace" "enabled")

def uniformAccess (f : Members) : Bool :=
  ["uniformBucketLevelAccess", "bucketPolicyOnly"].any fun k =>
    isTrue (fieldAt ((objectAt f "iamConfiguration").getD []) k "enabled")

structure Checks where
  ipFilter : Members → Option HttpError
  lifecycle : Members → Option HttpError
  cors : Members → Option HttpError
  zonal : Members → Option HttpError
  acl : Members → Members → Option HttpError

def refuse : Option HttpError → Except HttpError Unit
  | some e => .error e
  | none => .ok ()

def firstMissing (f : Members) (names : List String) (fits : Doc → Bool) : Option String :=
  names.find? fun k => (valueAt f k).any fun v => !fits v

def checkRpo (f : Members) : Option HttpError :=
  if (valueAt f "rpo").isSome ∧ stringAt f "rpo" ≠ ascii "DEFAULT" ∧
      stringAt f "rpo" ≠ ascii "ASYNC_TURBO" then
    some (invalidArgument (ascii "rpo " ++ stringAt f "rpo" ++
      ascii " must be DEFAULT or ASYNC_TURBO"))
  else none

def checkStorageClass (f : Members) : Except HttpError Members :=
  if (valueAt f "storageClass").isNone then .ok f
  else
    let class' := toUpper (stringAt f "storageClass")
    if storageClasses.any fun c => ascii c = class' then
      .ok (f.set (ascii "storageClass") (.str class'))
    else .error (invalidArgument (ascii "storageClass " ++ stringAt f "storageClass"))

def checkLabels (f : Members) : Option HttpError :=
  match valueAt f "labels" with
  | none => none
  | some (.obj m) =>
    (m.find? fun e => !isString e.2).map fun e =>
      invalidArgument (ascii "label " ++ quote e.1 ++ ascii " must be a string")
  | some _ => some (invalidArgument (ascii "labels must be an object"))

def mustBe (what : String) (k : String) : HttpError :=
  invalidArgument (ascii k ++ ascii " must be " ++ ascii what)

def validateKept (c : Checks) (f : Members) : Except HttpError Members := do
  refuse ((firstMissing f storedObjects isObject).map (mustBe "an object"))
  refuse (checkRpo f)
  refuse (c.ipFilter f)
  refuse (c.lifecycle f)
  refuse (c.cors f)
  let f ← checkSoftDeletePolicy f
  let f ← checkStorageClass f
  refuse (c.zonal f)
  refuse (checkLabels f)
  refuse ((firstMissing f ["versioning", "softDeletePolicy"] isObject).map (mustBe "an object"))
  refuse ((firstMissing f ["defaultEventBasedHold"] isBool).map (mustBe "a boolean"))
  pure f

def checkHierarchical (f : Members) : Option HttpError :=
  if !hierarchical f then none
  else if !uniformAccess f then
    some (invalidArgument (ascii "hierarchicalNamespace can only be enabled on a bucket with iamConfiguration.uniformBucketLevelAccess enabled."))
  else if isTrue (fieldAt f "versioning" "enabled") then some versionedHierarchy
  else none

def defaultBucketFields (f : Members) (created : Time) : Members :=
  let f := f.set (ascii "location") (.str
    (if stringAt f "location" = [] then ascii "US" else toUpper (stringAt f "location")))
  let f := if (valueAt f "storageClass").isNone then
    f.set (ascii "storageClass") (.str (ascii "STANDARD")) else f
  let f := if (valueAt f "softDeletePolicy").isNone then
    f.set (ascii "softDeletePolicy")
      (.obj [(ascii "retentionDurationSeconds", .str (ascii "604800"))]) else f
  match objectAt f "softDeletePolicy" with
  | some p =>
    if (valueAt p "effectiveTime").isNone then
      f.set (ascii "softDeletePolicy")
        (.obj (p.set (ascii "effectiveTime") (.str (rfc3339 created))))
    else f
  | none => f

structure OldPolicies where
  softDelete : Option Members
  retention : Option Members

def stampSoftDeletePolicy (next : Members) (old : OldPolicies) (now : Time) : Members :=
  match objectAt next "softDeletePolicy" with
  | none => next
  | some p =>
    let prev := old.softDelete.getD []
    let same := numberString (prev.get (ascii "retentionDurationSeconds")) =
      numberString (p.get (ascii "retentionDurationSeconds"))
    let stamp := match valueAt prev "effectiveTime" with
      | some t => if same then t else .str (rfc3339 now)
      | none => .str (rfc3339 now)
    next.set (ascii "softDeletePolicy") (.obj (p.set (ascii "effectiveTime") stamp))

def retentionPolicy (n : Int) (effective : Doc) (locked : Bool) : Members :=
  [(ascii "retentionPeriod", .str (integer n)), (ascii "effectiveTime", effective)] ++
    if locked then [(ascii "isLocked", .bool true)] else []

def periodOf (policy : Members) : Int × Option Failure :=
  parseInt64 (numberString (policy.get (ascii "retentionPeriod")))

def effectiveTime (prev : Members) (n : Int) (now : Time) : Doc :=
  match valueAt prev "effectiveTime" with
  | some t => if n = (periodOf prev).1 then t else .str (rfc3339 now)
  | none => .str (rfc3339 now)

def checkRetentionPolicy (next : Members) (old : OldPolicies) (now : Time) : Except HttpError Members :=
  let prev := old.retention.getD []
  let wasLocked := isTrue (prev.get (ascii "isLocked"))
  let p := (objectAt next "retentionPolicy").getD []
  if (valueAt p "retentionPeriod").isNone then
    if wasLocked then .error (errorf 400 "badRequestException"
      (ascii "The retention policy on a locked bucket cannot be removed."))
    else .ok (next.delete (ascii "retentionPolicy"))
  else
    let s := numberString (p.get (ascii "retentionPeriod"))
    let (n, err) := periodOf p
    if err.isSome ∨ n ≤ 0 ∨ maxRetentionPeriod < n then
      .error (invalidArgument (ascii "retentionPolicy.retentionPeriod " ++ quote s ++
        ascii " must be 1 to 3155760000 seconds"))
    else
      if wasLocked ∧ n < (periodOf prev).1 then .error (errorf 400 "badRequestException"
        (ascii "The retention period on a locked bucket cannot be reduced."))
      else
        .ok (next.set (ascii "retentionPolicy")
          (.obj (retentionPolicy n (effectiveTime prev n now) wasLocked)))

structure Bucket where
  fields : Members
  created : Time
  updated : Time
  metageneration : Int

structure ModifyCall where
  replace : Bool
  body : JsonObject
  pre : Preconditions
  now : Time

def placementError : HttpError :=
  invalidArgument (ascii "customPlacementConfig can only be set when a bucket is created.")

def hierarchyError : HttpError :=
  invalidArgument (ascii "hierarchicalNamespace can only be set when a bucket is created.")

def checkFixed (f next : Members) : Option HttpError :=
  if (next.get (ascii "location")).any isString ∧
      !equalFold (stringAt next "location") (stringAt f "location") then
    some (badRequest (ascii "The location of a bucket cannot be changed."))
  else if (next.get (ascii "customPlacementConfig")).isSome ∧
      dataLocations (next.get (ascii "customPlacementConfig")) ≠
        dataLocations (f.get (ascii "customPlacementConfig")) then some placementError
  else if (next.get (ascii "hierarchicalNamespace")).isSome ∧
      hierarchical next ≠ hierarchical f then some hierarchyError
  else none

def copyField (k : String) (f next : Members) : Members :=
  match f.get (ascii k) with
  | some v => next.set (ascii k) v
  | none => next

def replaced (b : Bucket) (next : Members) : Members :=
  let next := next.set (ascii "location") ((b.fields.get (ascii "location")).getD .null)
  let next := copyField "customPlacementConfig" b.fields next
  let next := copyField "hierarchicalNamespace" b.fields next
  let next := if (valueAt next "softDeletePolicy").isNone then
    next.set (ascii "softDeletePolicy") ((b.fields.get (ascii "softDeletePolicy")).getD .null)
    else next
  defaultBucketFields next b.created

def patched (b : Bucket) (next : Members) : Members :=
  let merged := mergePatch b.fields next
  if (valueAt merged "storageClass").isNone then
    merged.set (ascii "storageClass") (.str (ascii "STANDARD"))
  else merged

def keepObjectRetention (f next : Members) : Members :=
  match valueAt f "objectRetention" with
  | some v => next.set (ascii "objectRetention") v
  | none => next.delete (ascii "objectRetention")

def bucketsModify (c : Checks) (r : ModifyCall) (b : Bucket) : Except HttpError Bucket := do
  refuse (checkBucketFields r.body.members)
  refuse (r.pre.check b.metageneration false)
  let next := kept r.body.members
  let old : OldPolicies :=
    ⟨objectAt b.fields "softDeletePolicy", objectAt b.fields "retentionPolicy"⟩
  refuse (checkFixed b.fields next)
  let next ← validateKept c (if r.replace then replaced b next else patched b next)
  refuse (checkHierarchical next)
  let next := stampSoftDeletePolicy next old r.now
  let next ← checkRetentionPolicy next old r.now
  let next := keepObjectRetention (if r.replace then b.fields else next) next
  refuse (c.acl r.body.members next)
  pure { b with fields := next, metageneration := b.metageneration + 1, updated := r.now }

section Locking

def retentionLocked (f : Members) : Bool := isTrue (fieldAt f "retentionPolicy" "isLocked")

def retentionSeconds (f : Members) : Int :=
  (periodOf ((objectAt f "retentionPolicy").getD [])).1

def modify (c : Checks) (b : Bucket) (r : ModifyCall) : Bucket :=
  match bucketsModify c r b with
  | .ok b' => b'
  | .error _ => b

def modifyAll (c : Checks) (b : Bucket) (rs : List ModifyCall) : Bucket := rs.foldl (modify c) b

def Extends (f f' : Members) : Prop :=
  retentionLocked f' = true ∧ retentionSeconds f ≤ retentionSeconds f'

theorem isTrue_policy (f : Members) (k : String) : isTrue (fieldAt f "retentionPolicy" k) =
      isTrue (((objectAt f "retentionPolicy").getD []).get (ascii k)) := by
  unfold fieldAt
  cases objectAt f "retentionPolicy" <;> rfl

theorem periodOf_retentionPolicy {n : Int} (hpos : 0 < n) (hmax : n ≤ maxRetentionPeriod)
    (effective : Doc) (locked : Bool) : (periodOf (retentionPolicy n effective locked)).1 = n := by
  obtain ⟨m, rfl⟩ := Int.eq_ofNat_of_zero_le hpos.le
  have hsmall : m < 2 ^ 63 := by
    simp only [maxRetentionPeriod] at hmax
    omega
  have hget : (retentionPolicy m effective locked).get (ascii "retentionPeriod") =
      some (.str (decimal m)) := by
    simp [retentionPolicy, Members.get, integer, hpos.not_gt]
  rw [periodOf, hget, numberString, parseInt64_of_parseInt (parseInt_decimal hsmall)]

theorem isLocked_retentionPolicy (n : Int) (effective : Doc) :
    (retentionPolicy n effective true).get (ascii "isLocked") = some (.bool true) := by
  have hperiod : ascii "isLocked" ≠ ascii "retentionPeriod" := by decide
  have htime : ascii "isLocked" ≠ ascii "effectiveTime" := by decide
  simp [retentionPolicy, Members.get, hperiod, htime]

theorem objectAt_set (f p : Members) (k : String) : objectAt (f.set (ascii k) (.obj p)) k = some p := by
  simp [objectAt, Members.get_set]

theorem checkRetentionPolicy_extends {f next next' : Members} {soft : Option Members} {now : Time}
    (hlocked : retentionLocked f = true)
    (hok : checkRetentionPolicy next ⟨soft, objectAt f "retentionPolicy"⟩ now = .ok next') :
    Extends f next' := by
  rw [retentionLocked, isTrue_policy] at hlocked
  simp only [checkRetentionPolicy, hlocked, if_true, true_and] at hok
  split_ifs at hok with hnone hbad hless
  obtain rfl := Except.ok.inj hok
  push Not at hbad
  obtain ⟨-, hpos, hmax⟩ := hbad
  constructor
  · rw [retentionLocked, isTrue_policy, objectAt_set, Option.getD_some, isLocked_retentionPolicy]
    rfl
  · rw [retentionSeconds, retentionSeconds, objectAt_set, Option.getD_some,
      periodOf_retentionPolicy hpos hmax]
    exact not_lt.mp hless

theorem objectAt_keepObjectRetention (f next : Members) :
    objectAt (keepObjectRetention f next) "retentionPolicy" = objectAt next "retentionPolicy" := by
  have hne : ascii "retentionPolicy" ≠ ascii "objectRetention" := by decide
  unfold keepObjectRetention
  split <;> simp [objectAt, Members.get_set, Members.get_delete, hne]

theorem bucketsModify_extends {c : Checks} {r : ModifyCall} {b b' : Bucket}
    (hlocked : retentionLocked b.fields = true) (hok : bucketsModify c r b = .ok b') :
    Extends b.fields b'.fields := by
  unfold bucketsModify at hok
  obtain ⟨-, -, hok⟩ := Txn.except_bind_ok hok
  obtain ⟨-, -, hok⟩ := Txn.except_bind_ok hok
  obtain ⟨-, -, hok⟩ := Txn.except_bind_ok hok
  obtain ⟨next, -, hok⟩ := Txn.except_bind_ok hok
  obtain ⟨-, -, hok⟩ := Txn.except_bind_ok hok
  obtain ⟨next', hnext, hok⟩ := Txn.except_bind_ok hok
  obtain ⟨-, -, hok⟩ := Txn.except_bind_ok hok
  obtain rfl := Except.ok.inj hok
  have hextends := checkRetentionPolicy_extends hlocked hnext
  simpa only [Extends, retentionLocked, retentionSeconds, fieldAt, objectAt_keepObjectRetention]
    using hextends

theorem modify_extends {b : Bucket} (c : Checks) (r : ModifyCall)
    (hlocked : retentionLocked b.fields = true) : Extends b.fields (modify c b r).fields := by
  unfold modify
  cases hok : bucketsModify c r b with
  | error e => exact ⟨hlocked, le_rfl⟩
  | ok b' => exact bucketsModify_extends hlocked hok

theorem modifyAll_extends {b : Bucket} (c : Checks) (rs : List ModifyCall)
    (hlocked : retentionLocked b.fields = true) : Extends b.fields (modifyAll c b rs).fields := by
  induction rs generalizing b with
  | nil => exact ⟨hlocked, le_rfl⟩
  | cons r rs ih =>
    have hstep := modify_extends c r hlocked
    have hrest := ih hstep.1
    exact ⟨hrest.1, hstep.2.trans hrest.2⟩

theorem patch_merges_and_keeps_lock : (∀ (target : Members) (patch : JsonObject),
      (Doc.obj (mergePatch target patch.members)).denote =
        Tree.mergePatch (Doc.obj target).denote (Doc.obj patch.members).denote ∧
      (Doc.obj (mergePatch (mergePatch target patch.members) patch.members)).denote =
        (Doc.obj (mergePatch target patch.members)).denote) ∧
    ∀ (c : Checks) (b : Bucket) (before after : List ModifyCall),
      retentionLocked (modifyAll c b before).fields = true →
        retentionLocked (modifyAll c b (before ++ after)).fields = true ∧
          retentionSeconds (modifyAll c b before).fields ≤
            retentionSeconds (modifyAll c b (before ++ after)).fields := by
  refine ⟨fun target patch => ⟨denote_mergePatch target patch, denote_mergePatch_twice target patch⟩, ?_⟩
  intro c b before after hlocked
  have happend : modifyAll c b (before ++ after) = modifyAll c (modifyAll c b before) after :=
    List.foldl_append
  rw [happend]
  exact modifyAll_extends c after hlocked

def noChecks : Checks :=
  ⟨fun _ => none, fun _ => none, fun _ => none, fun _ => none, fun _ _ => none⟩

def lockedBucket : Bucket where
  fields := [(ascii "location", .str (ascii "US")),
    (ascii "retentionPolicy", .obj (retentionPolicy 100 (.str (rfc3339 0)) true))]
  created := 0
  updated := 0
  metageneration := 1

def periodPatch (seconds : String) : ModifyCall where
  replace := false
  body := ⟨[(ascii "retentionPolicy", .obj [(ascii "retentionPeriod", .str (ascii seconds))])],
    by simp [Doc.Distinct, Doc.DistinctMembers]⟩
  pre := ⟨none, none⟩
  now := 0

theorem patch_extends_lock :
    retentionSeconds (modifyAll noChecks lockedBucket [periodPatch "200"]).fields = 200 ∧
      retentionLocked (modifyAll noChecks lockedBucket
        ([periodPatch "200"] ++ [periodPatch "50"])).fields = true ∧
        retentionSeconds (modifyAll noChecks lockedBucket [periodPatch "200"]).fields ≤
          retentionSeconds (modifyAll noChecks lockedBucket
            ([periodPatch "200"] ++ [periodPatch "50"])).fields :=
  ⟨by decide +kernel, patch_merges_and_keeps_lock.2 noChecks lockedBucket [periodPatch "200"]
    [periodPatch "50"] (by decide +kernel)⟩

end Locking

end CloudBurrow.Storage.Fields
