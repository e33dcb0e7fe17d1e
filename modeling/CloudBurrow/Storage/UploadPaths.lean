import CloudBurrow.Storage.LogRecord
import CloudBurrow.Storage.Server
import CloudBurrow.Storage.UploadBody

namespace CloudBurrow.Storage

open Utf8 JsonText LogRecord

def blobOf (content : Bytes) : Blob := ⟨content, content.length, crc32c content⟩

def crcBytes (c : UInt32) : Bytes :=
  [(c >>> 24).toUInt8, (c >>> 16).toUInt8, (c >>> 8).toUInt8, c.toUInt8]

structure FullObject where
  record : ObjectRecord
  md5 : Bytes
  contentType : Bytes
  contentEncoding : Bytes
  contentDisposition : Bytes
  contentLanguage : Bytes
  cacheControl : Bytes
  metadata : Labels
  acl : List AclEntry
  keySHA256 : Option Bytes
  contexts : Contexts

structure HashHeaders where
  contentMD5 : Bytes := []
  googHash : Bytes := []

abbrev Expected := Option Bytes × Option UInt32

def decodeHash (what v : Bytes) : Except HttpError Bytes :=
  match Base64.decode v with
  | some b => .ok b
  | none => .error (badRequest (ascii "Invalid argument: " ++ what ++ ascii " " ++ quote v ++
      ascii " is not base64"))

def crcOf : Bytes → Except HttpError UInt32
  | [a, b, c, d] =>
    .ok (a.toUInt32 <<< 24 ||| b.toUInt32 <<< 16 ||| c.toUInt32 <<< 8 ||| d.toUInt32)
  | _ => .error (badRequest (ascii "Invalid argument: a CRC32C is 4 bytes"))

def trimSpace (s : Bytes) : Bytes :=
  ((s.dropWhile (· ∈ [9, 10, 11, 12, 13, 32])).reverse.dropWhile
    (· ∈ [9, 10, 11, 12, 13, 32])).reverse

def googHashPart (want : Expected) (part : Bytes) : Except HttpError Expected :=
  let trimmed := trimSpace part
  let k := trimmed.takeWhile (· ≠ 61)
  if 61 ∉ trimmed then .ok want
  else do
    let b ← decodeHash (ascii "x-goog-hash " ++ k) (trimmed.drop (k.length + 1))
    if k = ascii "md5" then .ok (some b, want.2)
    else if k = ascii "crc32c" then return (want.1, some (← crcOf b))
    else .ok want

def expectedHashes (h : HashHeaders) (m : FullMeta) : Except HttpError Expected := do
  let md5 ← if m.md5Hash = [] then .ok none
    else some <$> decodeHash (ascii "md5Hash") m.md5Hash
  let crc ← if m.crc32c = [] then .ok none
    else some <$> (decodeHash (ascii "crc32c") m.crc32c >>= crcOf)
  let md5 ← if h.contentMD5 = [] then .ok md5
    else some <$> decodeHash (ascii "Content-MD5") h.contentMD5
  (h.googHash.splitOn 44).foldlM googHashPart (md5, crc)

section Platform

variable (p : Platform)

def FullMeta.base (m : FullMeta) : UploadMeta where
  name := m.name
  storageClass := m.storageClass
  customTime := if m.customTime = [] then none else some ⟨m.customTime, p.parseTime m.customTime⟩
  protection := m.protection

def octetStream : Bytes := ascii "application/octet-stream"

def checkHashes (content : Bytes) (want : Expected) : Option HttpError :=
  if want.1.any (· ≠ p.md5 content) then
    some (badRequest (ascii "Provided MD5 hash " ++ quote (Base64.encode (want.1.getD [])) ++
      ascii " doesn't match calculated MD5 hash " ++ quote (Base64.encode (p.md5 content)) ++
      ascii "."))
  else if want.2.any (· ≠ crc32c content) then
    some (badRequest (ascii "Provided CRC32C " ++ quote (Base64.encode (crcBytes (want.2.getD 0))) ++
      ascii " doesn't match calculated CRC32C " ++
      quote (Base64.encode (crcBytes (crc32c content))) ++ ascii "."))
  else none

def FullMeta.record (m : FullMeta) (bucket content : Bytes) (generation : Int) (now : Time) :
    Except HttpError ObjectRecord := do
  let storageClass ← parseStorageClass (m.base p).storageClass
  let customTime ← parseCustomTime (m.base p).customTime
  applyProtection
    { bucket, name := m.name, generation, metageneration := 1, blob := (blobOf content).id,
      size := (blobOf content).size, crc32c := (blobOf content).crc32c, storageClass, customTime,
      created := now, updated := now } {} m.protection false false now

def FullMeta.object (m : FullMeta) (content : Bytes) (now : Time) (record : ObjectRecord)
    (acl : List AclEntry) : FullObject where
  record := record
  md5 := p.md5 content
  contentType := if m.contentType = [] then octetStream else m.contentType
  contentEncoding := m.contentEncoding
  contentDisposition := m.contentDisposition
  contentLanguage := m.contentLanguage
  cacheControl := m.cacheControl
  metadata := m.metadata
  acl := acl
  keySHA256 := m.keySHA256
  contexts := (m.contexts.map fun v => applyContexts ∅ v true now).getD ∅

def finalizeObject (b : BucketRecord) (access : BucketAccess) (bucket : Bytes) (m : FullMeta)
    (content : Bytes) (want : Expected) (generation : Int) (now : Time) :
    Except HttpError FullObject :=
  match checkHashes p content want with
  | some e => .error e
  | none => do
    let record ← m.record p bucket content generation now
    let record ← checkNewObject b (withStorageClass b record)
    let acl ← setUploadACL p b access m (newObjectACL p b access)
    .ok (m.object p content now record acl)

structure UploadCall where
  bucket : Bytes
  raw : Bytes
  name : Bytes := []
  mediaType : Bytes := []
  predefinedAcl : Bytes := []
  key : Except HttpError (Option Bytes) := .ok none
  hashes : HashHeaders := {}
  text : Valid bucket ∧ Valid name ∧ Valid mediaType ∧ Valid predefinedAcl := by decide

def UploadCall.metadata (c : UploadCall) : Except HttpError FullMeta := do
  let m ← parseUploadMeta p c.raw
  let name := if m.name = [] then c.name else m.name
  if name = [] then .error (required "name")
  else match validObjectName name with
    | some e => .error e
    | none => do
      let keySHA256 ← c.key
      .ok { m with
        name, keySHA256, predefinedAcl := c.predefinedAcl
        contentType := if m.contentType = [] then c.mediaType else m.contentType }

def multipartUpload (b : BucketRecord) (access : BucketAccess) (c : UploadCall) (content : Bytes)
    (generation : Int) (now : Time) : Except HttpError FullObject := do
  let m ← c.metadata p
  let want ← expectedHashes c.hashes m
  finalizeObject p b access c.bucket m content want generation now

structure FullSession where
  id : Bytes
  bucket : Bytes
  upload : FullMeta
  created : Time
  chunks : List SessionChunk := []
  received : Nat := 0
  headers : Labels := ∅

def FullSession.json (s : FullSession) : Json :=
  .obj [(ascii "id", .str s.id), (ascii "bucket", .str s.bucket),
    (ascii "meta", .obj s.upload.members), (ascii "headers", labelsJson s.headers)]

def badSession : HttpError := errorf 500 "backendError" (ascii "the session is not JSON")

def storedMeta : Option Json → Except HttpError FullMeta
  | some (.obj fields) => FullMeta.ofMembers fields
  | _ => .error badSession

def FullSession.reread (s : FullSession) : Except HttpError FullSession :=
  match parse (encode s.json) with
  | some (.obj ms) => do
    let upload ← storedMeta (member "meta" ms)
    let headers ← labelsField "headers" ms
    .ok { s with id := text (member "id" ms), bucket := text (member "bucket" ms), upload, headers }
  | _ => .error badSession

def FullSession.base (s : FullSession) : UploadSession where
  id := s.id
  bucket := s.bucket
  upload := s.upload.base p
  created := s.created
  chunks := s.chunks
  received := s.received

structure Piece where
  bytes : Bytes
  total : Option Nat
  time : Time

def joinChunks (chunks : List SessionChunk) : Blob := blobOf (chunks.flatMap (·.blob))

def Piece.call (q : Piece) (s : FullSession) : ChunkCall where
  id := s.id
  header := ascii "bytes " ++
    (if q.bytes = [] then ascii "*"
      else decimal s.received ++ ascii "-" ++ decimal (s.received + q.bytes.length - 1)) ++
    ascii "/" ++ (q.total.map decimal).getD (ascii "*")
  range := if q.bytes = [] then none
    else some (s.received, s.received + q.bytes.length - 1)
  total := q.total
  written := fun _ => .ok (blobOf q.bytes)
  joined := joinChunks

def FullSession.next (s : FullSession) (q : Piece) : Except HttpError SessionNext :=
  if sessionLife + sessionGoneFor ≤ q.time - s.created then .error noSession
  else if sessionLife ≤ q.time - s.created then .error sessionExpired
  else match (q.call s).range with
    | some (first, last) => chunkRange (q.call s) (s.base p) first last
    | none => afterChunk (q.call s) (s.base p)

def SessionNext.complete : SessionNext → Bool
  | .finish _ => true
  | _ => false

def FullSession.saved (s : FullSession) (u : UploadSession) : FullSession :=
  { s with chunks := u.chunks, received := u.received }

def FullSession.receive (s : FullSession) (q : Piece) : Except HttpError (FullSession × Bool) := do
  match ← s.next p q with
  | .save u => do
    let next ← afterChunk (q.call s) u
    .ok (s.saved u, next.complete)
  | next => .ok (s, next.complete)

def withHeaders (metadata headers : Labels) : Labels :=
  headers.foldl (fun acc k v => if acc.contains k then acc else acc.insert k v) metadata

def resumableFinish (b : BucketRecord) (access : BucketAccess) (hashes : HashHeaders)
    (s : FullSession) (generation : Int) (now : Time) : Except HttpError FullObject := do
  let blob := joinChunks s.chunks
  if blob.size ≠ s.received then .error notJoined
  else do
    let m := { s.upload with metadata := withHeaders s.upload.metadata s.headers }
    let want ← expectedHashes hashes m
    finalizeObject p b access s.bucket m blob.id want generation now

def resume (b : BucketRecord) (access : BucketAccess) (hashes : HashHeaders) (generation : Int) :
    FullSession → List Piece → Except HttpError (Option FullObject)
  | _, [] => .ok none
  | s, q :: qs => do
    let s ← s.reread
    let (s, complete) ← s.receive p q
    if complete then some <$> resumableFinish p b access hashes s generation q.time
    else resume b access hashes generation s qs

def resumableUpload (b : BucketRecord) (access : BucketAccess) (c : UploadCall) (id : Bytes)
    (created : Time) (headers : Labels) (pieces : List Piece) (generation : Int) :
    Except HttpError (Option FullObject) := do
  let m ← c.metadata p
  resume p b access c.hashes generation
    { id, bucket := c.bucket, upload := m, created, headers } pieces

end Platform

end CloudBurrow.Storage
