import CloudBurrow.Storage.LogRecord
import CloudBurrow.Storage.Resumable

namespace CloudBurrow.Storage

open Utf8 JsonText LogRecord

abbrev Labels := Std.ExtTreeMap Bytes Bytes

structure Platform where
  letterOrDigit : Bytes → Bool
  parseTime : Bytes → Option Time
  md5 : Bytes → Bytes
  projectNumber : Bytes → Int

def member (k : String) (ms : List (Bytes × Json)) : Option Json :=
  ((ms.filter fun m => m.1 = ascii k).getLast?).map Prod.snd

def text : Option Json → Bytes
  | some (.str s) => s
  | _ => []

mutual

def emptyValue : Json → Bool
  | .null => true
  | .obj ms => emptyMembers ms
  | .arr vs => emptyItems vs
  | _ => false

def emptyItems : List Json → Bool
  | [] => true
  | v :: vs => emptyValue v && emptyItems vs

def emptyMembers : List (Bytes × Json) → Bool
  | [] => true
  | (_, v) :: ms => emptyValue v && emptyMembers ms

end

structure AclEntry where
  entity : Bytes
  role : Bytes
deriving DecidableEq

structure ObjectContext where
  value : Bytes
  created : Time
  updated : Time
deriving DecidableEq

structure FullMeta where
  name : Bytes := []
  contentType : Bytes := []
  contentEncoding : Bytes := []
  contentDisposition : Bytes := []
  contentLanguage : Bytes := []
  cacheControl : Bytes := []
  metadata : Labels := ∅
  md5Hash : Bytes := []
  crc32c : Bytes := []
  storageClass : Bytes := []
  customTime : Bytes := []
  acl : Option Json := none
  predefinedAcl : Bytes := []
  keySHA256 : Option Bytes := none
  contexts : Option Json := none
  protection : ProtectionBody := {}

inductive FieldUse where
  | kept
  | output
  | refused (why : String)

def uploadFields : List (String × FieldUse) :=
  [("name", .kept), ("contentType", .kept), ("contentEncoding", .kept),
    ("contentDisposition", .kept), ("contentLanguage", .kept), ("cacheControl", .kept),
    ("metadata", .kept), ("md5Hash", .kept), ("crc32c", .kept), ("storageClass", .kept),
    ("bucket", .output), ("id", .output), ("kind", .output), ("selfLink", .output),
    ("mediaLink", .output), ("generation", .output), ("metageneration", .output),
    ("size", .output), ("etag", .output), ("timeCreated", .output), ("updated", .output),
    ("timeStorageClassUpdated", .output), ("timeFinalized", .output),
    ("componentCount", .output), ("timeDeleted", .output), ("softDeleteTime", .output),
    ("hardDeleteTime", .output), ("restoreToken", .output), ("acl", .kept), ("owner", .output),
    ("temporaryHold", .kept), ("eventBasedHold", .kept), ("retention", .kept),
    ("retentionExpirationTime", .output), ("customTime", .kept),
    ("kmsKeyName", .refused "customer-managed keys are not implemented"),
    ("customerEncryption", .output), ("contexts", .kept)]

def checkUploadField (m : Bytes × Json) : Option HttpError :=
  match uploadFields.find? fun f => ascii f.1 = m.1 with
  | none => some (badRequest (ascii "Invalid argument: " ++ m.1 ++ ascii " is not an Object field"))
  | some (_, .refused why) =>
    if emptyValue m.2 then none
    else some (badRequest (ascii "The object field " ++ quote m.1 ++
      ascii " is not supported by CloudBurrow yet (" ++ ascii why ++
      ascii "); it is refused rather than dropped"))
  | some _ => none

def wrongType (k : String) : HttpError :=
  badRequest (ascii "Invalid argument: json: cannot unmarshal into Go struct field uploadMeta." ++
    ascii k)

def stringField (k : String) (ms : List (Bytes × Json)) : Except HttpError Bytes :=
  match member k ms with
  | none => .ok []
  | some .null => .ok []
  | some (.str s) => .ok s
  | some _ => .error (wrongType k)

def labelValue (k : String) : Json → Except HttpError Bytes
  | .str s => .ok s
  | .null => .ok []
  | _ => .error (wrongType k)

def labelsField (k : String) (ms : List (Bytes × Json)) : Except HttpError Labels :=
  match member k ms with
  | none => .ok ∅
  | some .null => .ok ∅
  | some (.obj pairs) => do
    let values ← pairs.mapM fun m => do
      let v ← labelValue k m.2
      pure (m.1, v)
    pure (Std.ExtTreeMap.ofList values)
  | some _ => .error (wrongType k)

def bytesField (k : String) (ms : List (Bytes × Json)) : Except HttpError (Option Bytes) :=
  match member k ms with
  | none => .ok none
  | some .null => .ok none
  | some (.str s) =>
    match Base64.decode s with
    | some b => .ok (some b)
    | none => .error (wrongType k)
  | some _ => .error (wrongType k)

def FullMeta.ofMembers (ms : List (Bytes × Json)) : Except HttpError FullMeta := do
  let name ← stringField "name" ms
  let contentType ← stringField "contentType" ms
  let contentEncoding ← stringField "contentEncoding" ms
  let contentDisposition ← stringField "contentDisposition" ms
  let contentLanguage ← stringField "contentLanguage" ms
  let cacheControl ← stringField "cacheControl" ms
  let metadata ← labelsField "metadata" ms
  let md5Hash ← stringField "md5Hash" ms
  let crc32c ← stringField "crc32c" ms
  let storageClass ← stringField "storageClass" ms
  let customTime ← stringField "customTime" ms
  let predefinedAcl ← stringField "predefinedAcl" ms
  let keySHA256 ← bytesField "keySha256" ms
  pure { name, contentType, contentEncoding, contentDisposition, contentLanguage, cacheControl,
         metadata, md5Hash, crc32c, storageClass, customTime, acl := member "acl" ms,
         predefinedAcl, keySHA256, contexts := member "contexts" ms }

def labelsJson (l : Labels) : Json := .obj (l.toList.map fun p => (p.1, .str p.2))

def FullMeta.members (m : FullMeta) : List (Bytes × Json) :=
  [(ascii "name", .str m.name), (ascii "contentType", .str m.contentType),
    (ascii "contentEncoding", .str m.contentEncoding),
    (ascii "contentDisposition", .str m.contentDisposition),
    (ascii "contentLanguage", .str m.contentLanguage),
    (ascii "cacheControl", .str m.cacheControl), (ascii "metadata", labelsJson m.metadata),
    (ascii "md5Hash", .str m.md5Hash), (ascii "crc32c", .str m.crc32c),
    (ascii "storageClass", .str m.storageClass), (ascii "customTime", .str m.customTime)] ++
  (m.acl.toList.map fun v => (ascii "acl", v)) ++
  (if m.predefinedAcl = [] then [] else [(ascii "predefinedAcl", .str m.predefinedAcl)]) ++
  (m.keySHA256.toList.map fun b => (ascii "keySha256", .str (Base64.encode b))) ++
  m.contexts.toList.map fun v => (ascii "contexts", v)

section Contexts

variable (p : Platform)

def firstRune (s : Bytes) : Bytes := ((runes s).head?.getD none).getD replacement

def maxContextBytes : Nat := 256

def checkContextText (what : String) (s : Bytes) : Option HttpError :=
  if s = [] ∨ maxContextBytes < s.length then
    some (badRequest (ascii "Invalid argument: an object context " ++ ascii what ++
      ascii " must be between 1 and 256 characters, inclusive"))
  else if !p.letterOrDigit (firstRune s) then
    some (badRequest (ascii "Invalid argument: an object context " ++ ascii what ++
      ascii " must begin with an alphanumeric character: " ++ quote s))
  else if s.any (· ∈ [39, 34, 92, 47]) then
    some (badRequest (ascii "Invalid argument: an object context " ++ ascii what ++
      ascii " cannot contain a single quote, double quote, backslash or forward slash: " ++ quote s))
  else none

def toLower (s : Bytes) : Bytes := s.map fun b => if inRange 65 90 b then b + 32 else b

def checkContextKey (k : Bytes) : Option HttpError :=
  (checkContextText p "key" k).or
    (if (ascii "google:").isPrefixOf (toLower k) then
      some (badRequest (ascii
        "Invalid argument: object context keys with the google: prefix are reserved: " ++ quote k))
    else none)

def checkPayload (k : Bytes) : Json → Option HttpError
  | .null => none
  | .obj fields =>
    match fields.find? fun f => f.1 ∉ [ascii "value", ascii "createTime", ascii "updateTime"] with
    | some f => some (badRequest (ascii "Invalid argument: contexts.custom." ++ k ++ ascii "." ++
        f.1 ++ ascii " is not an ObjectCustomContextPayload field"))
    | none =>
      match member "value" fields with
      | none => none
      | some (.str v) => checkContextText p "value" v
      | some _ => some (badRequest (ascii "Invalid argument: contexts.custom." ++ k ++
          ascii ".value must be a string"))
  | _ => some (badRequest (ascii "Invalid argument: contexts.custom." ++ k ++
      ascii " must be an object"))

def checkContextsBody : Json → Option HttpError
  | .null => none
  | .obj ms =>
    match ms.find? fun m => m.1 ≠ ascii "custom" with
    | some m => some (badRequest (ascii "Invalid argument: contexts." ++ m.1 ++
        ascii " is not an ObjectContexts field"))
    | none =>
      match member "custom" ms with
      | none => none
      | some .null => none
      | some (.obj custom) =>
        custom.findSome? fun e => (checkContextKey p e.1).or (checkPayload p e.1 e.2)
      | some _ => some (badRequest (ascii "Invalid argument: contexts.custom must be an object"))
  | _ => some (badRequest (ascii "Invalid argument: contexts must be an object"))

abbrev Contexts := Std.ExtTreeMap Bytes ObjectContext

def customOf : Json → List (Bytes × Json)
  | .obj ms =>
    match member "custom" ms with
    | some (.obj custom) => custom
    | _ => []
  | _ => []

def payloadValue : Json → Option Bytes
  | .obj fields => (member "value" fields).map fun v => text (some v)
  | _ => none

def applyContext (old : Contexts) (now : Time) (next : Contexts) (e : Bytes × Json) : Contexts :=
  match payloadValue e.2 with
  | none => next.erase e.1
  | some value =>
    next.insert e.1 (match old[e.1]? with
      | none => { value, created := now, updated := now }
      | some c => if c.value ≠ value then { c with value, updated := now } else c)

def applyContexts (old : Contexts) (v : Json) (replace : Bool) (now : Time) : Contexts :=
  if customOf v = [] then ∅
  else (customOf v).foldl (applyContext old now) (if replace then ∅ else old)

end Contexts

section Acl

variable (p : Platform)

def signed : Bytes → Option Int
  | 45 :: digits => if digits.all isDigit ∧ digits ≠ [] then some (-(value digits)) else none
  | digits => if digits.all isDigit ∧ digits ≠ [] then some (value digits) else none
where
  value (digits : Bytes) : Int := Nat.ofDigits 10 (digits.map fun d => d.toNat - 48).reverse

def isInt64 (s : Bytes) : Bool := (signed s).any fun n => decide (-2 ^ 63 ≤ n ∧ n < 2 ^ 63)

def afterWord (word : String) (s : Bytes) : Option Bytes :=
  if (ascii word).isPrefixOf s then some (s.drop word.length) else none

def isScope (entity : Bytes) : Bool :=
  ["user-", "group-", "domain-"].any fun word =>
    (afterWord word entity).any fun rest => rest ≠ [] ∧ 10 ∉ rest

def teamOf (entity : Bytes) : Option (String × Bytes) :=
  ["owners", "editors", "viewers"].findSome? fun team =>
    ((afterWord "project-" entity).bind fun rest => (afterWord team rest).bind (afterWord "-")).bind
      fun project =>
        if project ≠ [] ∧ project.all (fun b => inRange 97 122 b || isDigit b || b == 45) then
          some (team, project)
        else none

def normalizeEntity (entity : Bytes) : Except HttpError Bytes :=
  if isScope entity then .ok entity
  else match teamOf entity with
    | some (team, project) =>
      if isInt64 project then .ok entity
      else .ok (ascii "project-" ++ ascii team ++ ascii "-" ++ integer (p.projectNumber project))
    | none =>
      if entity = ascii "allUsers" ∨ entity = ascii "allAuthenticatedUsers" then .ok entity
      else .error (badRequest (ascii "Invalid argument: entity " ++ quote entity ++ ascii
        " is not user-, group-, domain-, project-<team>-<project>, allUsers or allAuthenticatedUsers"))

def parseEntry : Json → Except HttpError AclEntry
  | .obj ms => do
    let entity := text (member "entity" ms)
    let role := toUpper (text (member "role" ms))
    if entity = [] then .error (required "entity")
    else if role = [] then .error (required "role")
    else do
      let entity ← normalizeEntity p entity
      if role = ascii "OWNER" ∨ role = ascii "READER" then .ok { entity, role }
      else .error (badRequest (ascii "Invalid argument: role " ++ quote role ++
        ascii " must be OWNER or READER"))
  | _ => .error (badRequest (ascii "Invalid argument: an access control entry must be an object"))

def setEntry (e : AclEntry) : List AclEntry → List AclEntry
  | [] => [e]
  | x :: rest => if x.entity = e.entity then { x with role := e.role } :: rest
    else x :: setEntry e rest

def parseACL : Json → Except HttpError (List AclEntry)
  | .arr items => items.foldlM (fun acl item => return setEntry (← parseEntry p item) acl) []
  | _ => .error (badRequest (ascii "Invalid argument: an ACL must be a list of entries"))

def team (project : Bytes) (t : String) : Bytes :=
  ascii "project-" ++ ascii t ++ ascii "-" ++ integer (p.projectNumber project)

def predefinedObjectACL (project name : Bytes) : Except HttpError (List AclEntry) :=
  let owner : AclEntry := ⟨team p project "owners", ascii "OWNER"⟩
  if name = ascii "private" ∨ name = ascii "bucketOwnerFullControl" ∨
      name = ascii "bucketOwnerRead" then .ok [owner]
  else if name = ascii "projectPrivate" then
    .ok [owner, ⟨team p project "editors", ascii "OWNER"⟩, ⟨team p project "viewers", ascii "READER"⟩]
  else if name = ascii "publicRead" then .ok [owner, ⟨ascii "allUsers", ascii "READER"⟩]
  else if name = ascii "authenticatedRead" then
    .ok [owner, ⟨ascii "allAuthenticatedUsers", ascii "READER"⟩]
  else .error (badRequest (ascii "Invalid argument: predefined object ACL " ++ quote name ++ ascii
    " must be authenticatedRead, bucketOwnerFullControl, bucketOwnerRead, private, projectPrivate or publicRead"))

structure BucketAccess where
  uniform : Bool := false
  defaultObjectACL : Option (List AclEntry) := none

def newObjectACL (b : BucketRecord) (a : BucketAccess) : List AclEntry :=
  a.defaultObjectACL.getD
    ((predefinedObjectACL p b.project (ascii "projectPrivate")).toOption.getD [])

def uniformRefusal : HttpError :=
  badRequest (ascii
    "Cannot use ACL API to manage access when uniform bucket-level access is enabled. Read more at https://cloud.google.com/storage/docs/uniform-bucket-level-access")

def rawACL (m : FullMeta) : Option Json := m.acl.filter fun v => match v with
  | .null => false
  | _ => true

def setUploadACL (b : BucketRecord) (a : BucketAccess) (m : FullMeta) (acl : List AclEntry) :
    Except HttpError (List AclEntry) :=
  if a.uniform ∧ (m.predefinedAcl ≠ [] ∨ (rawACL m).any fun v => !emptyValue v) then
    .error uniformRefusal
  else if m.predefinedAcl ≠ [] then predefinedObjectACL p b.project m.predefinedAcl
  else match rawACL m with
    | some v => parseACL p v
    | none => .ok acl

end Acl

section Fields

variable (p : Platform)

def boolField (k : String) (ms : List (Bytes × Json)) : Field (Option Bool) :=
  match member k ms with
  | none => .absent
  | some .null => .null
  | some (.bool b) => .value (some b)
  | some _ => .value none

def retentionModeOf (s : Bytes) : Option RetentionMode :=
  if s = ascii "Unlocked" then some .unlocked else if s = ascii "Locked" then some .locked else none

def retentionField (ms : List (Bytes × Json)) : Field RetentionValue :=
  match member "retention" ms with
  | none => .absent
  | some .null => .null
  | some (.obj fields) =>
    if emptyMembers fields then .value .emptyObject
    else
      let limit := text (member "retainUntilTime" fields)
      .value (.config (retentionModeOf (text (member "mode" fields))) limit
        (if limit = [] then none else p.parseTime limit))
  | some _ => .value .notObject

def protectionOf (ms : List (Bytes × Json)) : ProtectionBody where
  temporaryHold := boolField "temporaryHold" ms
  eventBasedHold := boolField "eventBasedHold" ms
  retention := retentionField p ms

def parseUploadMeta (raw : Bytes) : Except HttpError FullMeta :=
  if skip raw = [] then .ok {}
  -- Decoding coerces every string to UTF-8.
  else match (parse raw).map clean with
    | some (.obj ms) => do
      match ms.findSome? checkUploadField with
      | some e => .error e
      | none => do
        let m ← FullMeta.ofMembers ms
        match (member "contexts" ms).bind (checkContextsBody p) with
        | some e => .error e
        | none =>
          .ok { m with keySHA256 := none, protection := protectionOf p ms }
    | _ => .error (errorf 400 "parseError"
        (ascii "Parse Error: the object metadata is not a JSON object"))

end Fields

end CloudBurrow.Storage
