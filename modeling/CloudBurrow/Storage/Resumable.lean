import CloudBurrow.Codec.ParseInt
import CloudBurrow.Storage.Copy

namespace CloudBurrow.Storage

open Utf8 JsonText ParseInt Transaction

def chunkUnit : Nat := 262144

def sessionLife : Time := 7 * dayLength

def sessionGoneFor : Time := 7 * dayLength

def getSession (id : Bytes) : Action (Option UploadSession) := do
  let u : Option (Encoded UploadSession.recode) ← Tx.get .session id
  pure (u.map (·.val))

def putSession (u : UploadSession) : Action Unit := Tx.put .session u.id u.encode

structure StartCall where
  id : Bytes
  bucket : Bytes
  upload : UploadMeta
  query : ObjectPreconditions := {}

def StartCall.check (r : StartCall) : Option HttpError :=
  if r.upload.name = [] then some (required "name") else validObjectName r.upload.name

def resumableStart (r : StartCall) (now : Time) : Action Unit :=
  putSession { id := r.id, bucket := r.bucket, upload := r.upload, query := r.query, created := now }

structure ChunkCall where
  id : Bytes
  cancel : Bool := false
  method : Option HttpError := none
  header : Bytes
  malformed : Option HttpError := none
  range : Option (Nat × Nat) := none
  total : Option Nat := none
  skipped : Nat → Except HttpError Unit := fun _ => .ok ()
  written : Nat → Except HttpError Blob
  joined : List SessionChunk → Blob
  checksums : Option HttpError := none

inductive SessionNext where
  | forget (cancelled : Bool)
  | replay (o : ObjectRecord)
  | save (u : UploadSession)
  | incomplete (received : Nat)
  | finish (u : UploadSession)

def noSession : HttpError := notFound (ascii "No such upload session")

def sessionExpired : HttpError := errorf 410 "gone" (ascii "The upload session has expired")

def outOfRange (header : Bytes) (received : Nat) : HttpError :=
  badRequest (ascii "Content-Range " ++ quote header ++ ascii " does not continue from the " ++ decimal received ++
    ascii " byte(s) persisted")

def badChunkSize (size : Int) : HttpError :=
  badRequest (ascii "Invalid request. There were " ++ integer size ++
    ascii " byte(s) in the request body. The number of bytes must be a multiple of 262144 unless it is the last chunk.")

def shortChunk (got : Nat) (want : Int) : HttpError :=
  badRequest (ascii "the chunk carried " ++ decimal got ++ ascii " byte(s), not the " ++
    integer want ++ ascii " its Content-Range declares")

def overTotal (received total : Nat) : HttpError :=
  badRequest (decimal received ++ ascii " byte(s) persisted, more than the declared total " ++
    decimal total)

def afterChunk (r : ChunkCall) (u : UploadSession) : Except HttpError SessionNext :=
  match r.total with
  | none => .ok (.incomplete u.received)
  | some total =>
    if total < u.received then .error (overTotal u.received total)
    else if u.received < total then .ok (.incomplete u.received)
    else .ok (.finish u)

def UploadSession.extend (u : UploadSession) (b : Blob) : UploadSession :=
  { u with
    chunks := u.chunks ++ [{ blob := b.id, size := b.size }]
    received := u.received + b.size }

def chunkRange (r : ChunkCall) (u : UploadSession) (first last : Nat) : Except HttpError SessionNext :=
  if last < first ∨ u.received < first then .error (outOfRange r.header u.received)
  else
    let size := wrap ((last : Int) - first + 1)
    let stop := wrap ((last : Int) + 1)
    if r.total.map Int.ofNat ≠ some stop ∧ size % chunkUnit ≠ 0 then .error (badChunkSize size)
    else do
      if first < u.received then r.skipped (u.received - first)
      let rest := wrap (stop - u.received)
      if rest ≤ 0 then afterChunk r u
      else do
        let b ← r.written rest.toNat
        if b.size ≠ rest then .error (shortChunk b.size rest) else .ok (.save (u.extend b))

def resumableChunk (r : ChunkCall) (now : Time) : Action SessionNext := do
  match ← getSession r.id with
  | none => .refuse noSession
  | some u =>
    if sessionLife + sessionGoneFor ≤ now - u.created then pure (.forget false)
    else if sessionLife ≤ now - u.created then .refuse sessionExpired
    else if r.cancel then pure (.forget true)
    else do
      Txn.check r.method
      match u.done with
      | some o => pure (.replay o)
      | none => do
        Txn.check r.malformed
        match r.range with
        | some (first, last) => Txn.ofExcept (chunkRange r u first last)
        | none => Txn.ofExcept (afterChunk r u)

def forgetSession (id : Bytes) : Action Unit := Tx.delete .session id

def notJoined : HttpError :=
  errorf 500 "backendError" (ascii "the upload's bytes could not be joined")

def sessionUpload (r : ChunkCall) (u : UploadSession) : Except HttpError Upload :=
  let blob := r.joined u.chunks
  if blob.size ≠ u.received then .error notJoined
  else .ok { bucket := u.bucket, upload := u.upload, blob, pre := u.query, checksums := r.checksums }

def markSession (u : UploadSession) (o : ObjectRecord) : Action Unit :=
  putSession { u with done := some o }

def rewriteTokenTTL : Time := 7 * dayLength

def rewriteUnit : Nat := 1048576

structure RewriteCall where
  source : Source
  bucket : Bytes
  name : Bytes
  pre : ObjectPreconditions := {}
  per : Option Nat := none
  token : Bytes := []
  body : Option ObjectBody := none
  storageClass : Bytes := []
  unsupported : Option HttpError := none
  keys : ObjectRecord → Option HttpError := fun _ => none
  fresh : Bytes

def badRewriteUnit : HttpError :=
  badRequest (ascii
    "Invalid argument: maxBytesRewrittenPerCall must be a positive multiple of 1048576")

def tokenGone : HttpError :=
  errorf 410 "gone" (ascii "The rewrite token is not valid: it has been used or has expired")

def tokenElsewhere : HttpError :=
  badRequest (ascii "The rewrite token belongs to a different rewrite")

def getRewrite (token : Bytes) : Action (Option RewriteState) := do
  let st : Option (Encoded RewriteState.recode) ← Tx.get .rewrite token
  pure (st.map (·.val))

def RewriteCall.load (r : RewriteCall) (now : Time) : Action RewriteState := do
  Txn.check (if r.per.any fun n => n = 0 ∨ n % rewriteUnit ≠ 0 then some badRewriteUnit else none)
  if r.token ≠ [] then do
    match ← getRewrite r.token with
    | none => .refuse tokenGone
    | some st =>
      if st.used ∨ rewriteTokenTTL ≤ now - st.created then .refuse tokenGone
      else if st.dstBucket ≠ r.bucket ∨ st.dstName ≠ r.name ∨ st.source.bucket ≠ r.source.bucket ∨
          st.source.name ≠ r.source.name then .refuse tokenElsewhere
      else pure st
  else do
    let (src, _) ← sourceObject r.source
    let storageClass ← Txn.ofExcept (parseStorageClass r.storageClass)
    Txn.check r.unsupported
    Txn.check (r.keys src)
    pure { token := r.fresh, source := src, dstBucket := r.bucket, dstName := r.name,
           body := r.body, storageClass, created := now }

def RewriteState.progress (st : RewriteState) (per : Option Nat) : RewriteState :=
  let step := st.source.size - st.done
  { st with done := st.done + (per.map (min step)).getD step }

def putRewrite (st : RewriteState) : Action Unit := Tx.put .rewrite st.token st.encode

def RewriteState.draw (st : RewriteState) (now wall : Time) : Action ObjectRecord := do
  let o ← Txn.ofExcept
    (applyDestination (copied st.source st.dstBucket st.dstName st.storageClass) st.body wall)
  stamp o now

def RewriteCall.commit (r : RewriteCall) (o : ObjectRecord) (now : Time) : Action ObjectRecord :=
  commitNew o r.pre (fun _ => pure ()) now

def minPartSize : Nat := 5242880

def maxPartCount : Nat := 10000

def noSuchUpload : HttpError :=
  errorf 404 "NoSuchUpload" (ascii "The requested upload was not found.")

def getUpload (bucket id : Bytes) : Action (Option MultipartUpload) := do
  let u : Option (Encoded MultipartUpload.recode) ← Tx.get .mpu (objectKey bucket id)
  pure (u.map (·.val))

def putUpload (u : MultipartUpload) : Action Unit :=
  Tx.put .mpu (objectKey u.bucket u.id) u.encode

def uploadNamed (bucket name id : Bytes) : Action MultipartUpload := do
  match ← getUpload bucket id with
  | none => .refuse noSuchUpload
  | some u => if u.upload.name ≠ name then .refuse noSuchUpload else pure u

structure InitiateCall where
  bucket : Bytes
  id : Bytes
  upload : UploadMeta

def mpuInitiate (r : InitiateCall) (now : Time) : Action Unit :=
  putUpload { id := r.id, bucket := r.bucket, upload := r.upload, initiated := now }

structure PartCall where
  bucket : Bytes
  name : Bytes
  id : Bytes
  number : Nat
  part : MpuPart
  digest : Option HttpError := none

def setPart (parts : List (Nat × MpuPart)) (n : Nat) (p : MpuPart) : List (Nat × MpuPart) :=
  parts.filter (fun e => e.1 ≠ n) ++ [(n, p)]

def PartCall.load (r : PartCall) : Action Unit := do
  Txn.check (if r.number < 1 ∨ maxPartCount < r.number then
    some (errorf 400 "InvalidArgument" (ascii "partNumber must be 1 to 10000")) else none)
  let _ ← uploadNamed r.bucket r.name r.id
  Txn.check r.digest

def PartCall.save (r : PartCall) : Action Unit := do
  match ← getUpload r.bucket r.id with
  | none => .refuse noSuchUpload
  | some u => putUpload { u with parts := setPart u.parts r.number r.part }

structure CompleteCall where
  bucket : Bytes
  name : Bytes
  id : Bytes
  parts : List (Nat × Bytes)
  joined : List MpuPart → Blob

def ascending : Nat → List (Nat × Bytes) → Bool
  | _, [] => true
  | last, (n, _) :: rest => decide (last < n) && ascending n rest

def partsOf (u : MultipartUpload) : List (Nat × Bytes) → Except HttpError (List MpuPart)
  | [] => .ok []
  | (n, etag) :: rest =>
    match u.parts.lookup n with
    | none => .error (badPart n)
    | some p =>
      if etag ≠ p.md5 then .error (badPart n)
      else if rest ≠ [] ∧ p.size < minPartSize then
        .error (errorf 400 "InvalidArgument" (ascii "Part " ++ decimal n ++ ascii " is " ++
          decimal p.size ++ ascii " bytes; every part but the last must be at least 5 MiB."))
      else (partsOf u rest).map (p :: ·)
where
  badPart (n : Nat) : HttpError :=
    errorf 400 "InvalidPart" (ascii "Part " ++ decimal n ++
      ascii " was not uploaded, or its ETag does not match.")

def malformedXml : HttpError :=
  errorf 400 "MalformedXML"
    (ascii "The body is not a CompleteMultipartUpload with at least one Part.")

def invalidPartOrder : HttpError :=
  errorf 400 "InvalidPartOrder"
    (ascii "The parts must be listed in ascending order of part number.")

def CompleteCall.load (r : CompleteCall) : Action Upload := do
  Txn.check (if r.parts = [] then some malformedXml else none)
  let u ← uploadNamed r.bucket r.name r.id
  Txn.check (if ascending 0 r.parts then none else some invalidPartOrder)
  let parts ← Txn.ofExcept (partsOf u r.parts)
  pure { bucket := r.bucket, upload := u.upload, blob := r.joined parts }

def CompleteCall.forget (r : CompleteCall) : Action Unit := Tx.delete .mpu (objectKey r.bucket r.id)

def mpuAbort (bucket name id : Bytes) : Action Unit := do
  let _ ← uploadNamed bucket name id
  Tx.delete .mpu (objectKey bucket id)

end CloudBurrow.Storage
