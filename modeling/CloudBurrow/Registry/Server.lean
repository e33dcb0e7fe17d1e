import CloudBurrow.Codec.JsonText
import CloudBurrow.Codec.Sha256
import CloudBurrow.Process.Mutex
import CloudBurrow.Registry.Deletes

namespace CloudBurrow.Registry

open Utf8 FileTree Threads

section Manifests

def hexSum (b : Bytes) : Bytes :=
  (Sha256.sum b).flatMap fun x => [JsonText.hexDigit (x.toNat / 16), JsonText.hexDigit (x.toNat % 16)]

def digestOf (b : Bytes) : Bytes := ascii "sha256:" ++ hexSum b

def mediaTypeDockerManifest : Bytes := ascii "application/vnd.docker.distribution.manifest.v2+json"

def mediaTypeDockerManifestList : Bytes := ascii "application/vnd.docker.distribution.manifest.list.v2+json"

def mediaTypeOCIManifest : Bytes := ascii "application/vnd.oci.image.manifest.v1+json"

def mediaTypeOCIIndex : Bytes := ascii "application/vnd.oci.image.index.v1+json"

structure ManifestDoc where
  schemaVersion : Int
  mediaType : Bytes
  config : Option Bytes
  layers : List Bytes
  manifests : Option (List Bytes)

def parseManifest (contentType : Bytes) (m : ManifestDoc) : Option Bytes :=
  let given := if 59 ∈ contentType then trimSpace (contentType.takeWhile (· ≠ 59)) else contentType
  let mt :=
    if given = [] ∨ given = ascii "application/json" ∨ given = ascii "application/octet-stream" then
      if m.mediaType ≠ [] then m.mediaType
      else if m.manifests.isSome then mediaTypeOCIIndex else mediaTypeOCIManifest
    else given
  let accepted :=
    if mt = mediaTypeDockerManifest ∨ mt = mediaTypeOCIManifest then m.schemaVersion = 2 ∧ m.config.isSome
    else if mt = mediaTypeDockerManifestList ∨ mt = mediaTypeOCIIndex then m.schemaVersion = 2
    else False
  if accepted ∧ (m.mediaType = [] ∨ m.mediaType = mt) then some mt else none

structure Push where
  repo : Repo
  image : Bytes
  tag : Option Bytes
  mediaType : Bytes
  content : Bytes
  manifests : List Bytes
  image_valid : validImage image = true
  tag_valid : ∀ t ∈ tag, validTag t = true

def Push.digest (p : Push) : Bytes := digestOf p.content

end Manifests

structure Store where
  inodes : List Bytes
  uploads : Bytes → Option Nat
  blobs : Bytes → Option Nat
  tree : Tree
  lock : Bool
  drawn : List Bytes
  stored : List Nat
  reads : List (Bytes × Bytes)

inductive Call where
  | startUpload
  | appendUpload (id : Bytes) (chunks : List Bytes)
  | finishUpload (id digest : Bytes)
  | cancelUpload (id : Bytes)
  | putBlob (b : Bytes)
  | deleteBlob (digest : Bytes)
  | readBlob (digest : Bytes)
  | putManifest (r : Repo) (image ref contentType b : Bytes)
  | getManifest (r : Repo) (image ref : Bytes)
  | setTag (r : Repo) (image tag digest : Bytes)
  | delete (d : Deletion)

inductive Work where
  | push (p : Push)
  | setTag (r : Repo) (image tag digest : Bytes)
  | delete (d : Deletion)

inductive Thread where
  | call (c : Call)
  | appending (inode : Nat) (chunks : List Bytes)
  | hashing (id digest : Bytes) (inode : Nat) (got : Bytes)
  | moving (id digest : Bytes) (inode : Nat)
  | creatingTemp (b : Bytes) (then' : Option Push)
  | writingTemp (b : Bytes) (then' : Option Push)
  | placing (b : Bytes) (then' : Option Push)
  | reading (digest : Bytes) (inode : Nat) (got : Bytes)
  | readingTag (r : Repo) (image tag : Bytes)
  | readingRevision (r : Repo) (image digest : Bytes)
  | checkingBlobs (digests : List Bytes) (p : Push)
  | locking (w : Work)
  | checkingManifests (digests : List Bytes) (p : Push)
  | storing (p : Push)
  | makingRevision (p : Push)
  | truncatingRevision (p : Push)
  | writingRevision (p : Push)
  | statingRevision (r : Repo) (image tag digest : Bytes)
  | makingTag (r : Repo) (image tag digest : Bytes)
  | truncatingTag (r : Repo) (image tag digest : Bytes)
  | writingTag (r : Repo) (image tag digest : Bytes)
  | removingTag (r : Repo) (image tag : Bytes)
  | removingRevision (r : Repo) (image digest : Bytes)
  | listingTags (r : Repo) (image digest : Bytes)
  | readingTags (r : Repo) (image digest : Bytes) (names naming : List Name)
  | untagging (r : Repo) (image digest : Bytes) (naming : List Name)
  | countingRevisions (r : Repo) (image digest : Bytes)
  | statingImage (r : Repo) (image : Bytes)
  | removingAll (path dir stop : Path)
  | pruning (dir stop : Path)
  | removingEmpty (dir stop : Path)
  | unlocking

structure Input where
  id : Bytes
  size : Nat
  leaf : Path

namespace Store

variable (s : Store)

def hexOf (digest : Bytes) : Bytes := trimPrefix (ascii "sha256:") digest

def validUploadID (id : Bytes) : Bool := id.length = 32 && id.all isHex

def create (id : Bytes) : Store :=
  { s with
    inodes := s.inodes ++ [[]]
    uploads := Function.update s.uploads id (some s.inodes.length)
    drawn := s.drawn ++ [id] }

def start (id : Bytes) : Store :=
  match s.uploads id with
  | none => s.create id
  -- os.Create truncates the file that has the name
  | some inode => { s with inodes := s.inodes.set inode [], drawn := s.drawn ++ [id] }

def append (inode : Nat) (chunk : Bytes) : Store :=
  { s with inodes := s.inodes.modify inode (· ++ chunk) }

def finish (id digest : Bytes) (inode : Nat) : Store :=
  { s with
    uploads := Function.update s.uploads id none
    blobs := Function.update s.blobs (hexOf digest) (some inode)
    stored := s.stored ++ [inode] }

def place (b : Bytes) : Store :=
  { s with
    inodes := s.inodes ++ [b]
    blobs := Function.update s.blobs (hexSum b) (some s.inodes.length)
    stored := s.stored ++ [s.inodes.length] }

def forget (id : Bytes) : Store := { s with uploads := Function.update s.uploads id none }

def drop (digest : Bytes) : Store := { s with blobs := Function.update s.blobs (hexOf digest) none }

def answer (digest got : Bytes) : Store := { s with reads := s.reads ++ [(digest, got)] }

def edit (t : Tree) : Store := { s with tree := t }

def chunk (inode : Nat) (got : Bytes) (size : Nat) : Bytes :=
  ((s.inodes.getD inode []).drop got.length).take (size + 1)

end Store

variable (unmarshal : Bytes → Option ManifestDoc) (root : Root)

namespace Store

def edits (s : Store) (result : Option Tree) (next : Thread) : List Thread × Store :=
  match result with
  | some t => ([next], s.edit t)
  | none => ([.unlocking], s)

def pushOf (r : Repo) (image ref contentType b : Bytes) : Option (Push × List Bytes) :=
  match unmarshal b with
  | none => none
  | some m =>
    match parseManifest contentType m with
    | none => none
    | some mt =>
      if himage : validImage image = true then
        let blobs := m.config.toList ++ m.layers
        let manifests := m.manifests.getD []
        if (ascii "sha256:").isPrefixOf ref ∨ 58 ∈ ref then
          if ref = digestOf b then some (⟨r, image, none, mt, b, manifests, himage, by simp⟩, blobs) else none
        else if htag : validTag ref = true then
          some (⟨r, image, some ref, mt, b, manifests, himage, by simpa using htag⟩, blobs)
        else none
      else none

def begin (s : Store) (input : Input) : Call → List Thread × Store
  | .startUpload => ([], s.start input.id)
  | .appendUpload id chunks =>
    if !validUploadID id then ([], s)
    else match s.uploads id with
      | none => ([], s)
      | some inode => ([.appending inode chunks], s)
  | .finishUpload id digest =>
    if !validUploadID id || !validDigest digest then ([], s)
    else match s.uploads id with
      | none => ([], s)
      | some inode => ([.hashing id digest inode []], s)
  | .cancelUpload id => if !validUploadID id then ([], s) else ([], s.forget id)
  | .putBlob b => if (s.blobs (hexSum b)).isSome then ([], s) else ([.creatingTemp b none], s)
  | .deleteBlob digest => if !validDigest digest then ([], s) else ([], s.drop digest)
  | .readBlob digest =>
    if !validDigest digest then ([], s)
    else match s.blobs (hexOf digest) with
      | none => ([], s)
      | some inode => ([.reading digest inode []], s)
  | .putManifest r image ref contentType b =>
    match pushOf unmarshal r image ref contentType b with
    | none => ([], s)
    | some (p, digests) => ([.checkingBlobs digests p], s)
  | .getManifest r image ref =>
    if !validImage image then ([], s)
    else if validDigest ref then ([.readingRevision r image ref], s)
    else if validTag ref then ([.readingTag r image ref], s)
    else ([], s)
  | .setTag r image tag digest => if !validTag tag then ([], s) else ([.locking (.setTag r image tag digest)], s)
  | .delete (.deleteTag r image tag) =>
    if !validTag tag then ([], s) else ([.locking (.delete (.deleteTag r image tag))], s)
  | .delete (.deleteManifest r image digest) =>
    if !validDigest digest then ([], s) else ([.locking (.delete (.deleteManifest r image digest))], s)
  | .delete (.deleteImage r image) =>
    if !validImage image then ([], s) else ([.locking (.delete (.deleteImage r image))], s)
  | .delete (.deleteRepository r) => ([.locking (.delete (.deleteRepository r))], s)

def first : Work → Thread
  | .push p => .checkingManifests p.manifests p
  | .setTag r image tag digest => .statingRevision r image tag digest
  | .delete (.deleteTag r image tag) => .removingTag r image tag
  | .delete (.deleteManifest r image digest) => .removingRevision r image digest
  | .delete (.deleteImage r image) => .statingImage r image
  | .delete (.deleteRepository r) => .removingAll (r.dir root) (r.dir root).dropLast (join root.path [ascii "repos"])

def advance (input : Input) (t : Thread) (s : Store) : List Thread × Store :=
  match t with
  | .call c => s.begin unmarshal input c
  | .appending _ [] => ([], s)
  | .appending inode (chunk :: rest) => ([.appending inode rest], s.append inode chunk)
  | .hashing id digest inode got =>
    let chunk := s.chunk inode got input.size
    if chunk ≠ [] then ([.hashing id digest inode (got ++ chunk)], s)
    else if digestOf got = digest then ([.moving id digest inode], s) else ([], s)
  | .moving id digest _ =>
    match s.uploads id with
    | none => ([], s)
    | some inode => ([], s.finish id digest inode)
  | .creatingTemp b then' => ([.writingTemp b then'], s)
  | .writingTemp b then' => ([.placing b then'], s)
  | .placing b none => ([], s.place b)
  | .placing b (some p) => ([.makingRevision p], s.place b)
  | .reading digest inode got =>
    let chunk := s.chunk inode got input.size
    if chunk ≠ [] then ([.reading digest inode (got ++ chunk)], s) else ([], s.answer digest got)
  | .readingTag r image tag =>
    match s.tree.node (tagPath root r image tag) with
    | some (.file b) => ([.readingRevision r image (trimSpace b)], s)
    | _ => ([], s)
  | .readingRevision r image digest =>
    match s.tree.node (revisionPath root r image digest) with
    | some (.file _) => ([.call (.readBlob digest)], s)
    | _ => ([], s)
  | .checkingBlobs [] p => ([.locking (.push p)], s)
  | .checkingBlobs (d :: rest) p =>
    if validDigest d = true ∧ (s.blobs (hexOf d)).isSome then ([.checkingBlobs rest p], s) else ([], s)
  | .locking w => if s.lock then ([.locking w], s) else ([first root w], { s with lock := true })
  | .checkingManifests [] p => ([.storing p], s)
  | .checkingManifests (d :: rest) p =>
    if (s.tree.node (revisionPath root p.repo p.image d)).isSome then ([.checkingManifests rest p], s)
    else ([.unlocking], s)
  | .storing p =>
    if (s.blobs (hexSum p.content)).isSome then ([.makingRevision p], s) else ([.creatingTemp p.content (some p)], s)
  | .makingRevision p =>
    s.edits (s.tree.mkdirAll (revisionPath root p.repo p.image p.digest).dropLast) (.truncatingRevision p)
  | .truncatingRevision p =>
    s.edits (s.tree.writeFile (revisionPath root p.repo p.image p.digest) []) (.writingRevision p)
  | .writingRevision p =>
    s.edits (s.tree.writeFile (revisionPath root p.repo p.image p.digest) p.mediaType)
      (match p.tag with
        | some tag => .makingTag p.repo p.image tag p.digest
        | none => .unlocking)
  | .statingRevision r image tag digest =>
    if (s.tree.node (revisionPath root r image digest)).isSome then ([.makingTag r image tag digest], s)
    else ([.unlocking], s)
  | .makingTag r image tag digest =>
    s.edits (s.tree.mkdirAll (tagPath root r image tag).dropLast) (.truncatingTag r image tag digest)
  | .truncatingTag r image tag digest =>
    s.edits (s.tree.writeFile (tagPath root r image tag) []) (.writingTag r image tag digest)
  | .writingTag r image tag digest => s.edits (s.tree.writeFile (tagPath root r image tag) digest) .unlocking
  | .removingTag r image tag => s.edits (s.tree.remove (tagPath root r image tag)) .unlocking
  | .removingRevision r image digest =>
    s.edits (s.tree.remove (revisionPath root r image digest)) (.listingTags r image digest)
  | .listingTags r image digest =>
    if !validImage image || (s.tree.node (imageDir root r image)).isNone then ([.untagging r image digest []], s)
    else ([.readingTags r image digest (s.tree.children (join (imageDir root r image) [ascii "tags"])) []], s)
  | .readingTags r image digest [] naming => ([.untagging r image digest naming], s)
  | .readingTags r image digest (name :: rest) naming =>
    match s.tree.node (join (imageDir root r image) [ascii "tags", name]) with
    | some (.file b) =>
      ([.readingTags r image digest rest (if trimSpace b = digest then naming ++ [name] else naming)], s)
    | _ => ([.readingTags r image digest rest naming], s)
  | .untagging r image digest [] => ([.countingRevisions r image digest], s)
  | .untagging r image digest (tag :: rest) =>
    ([.untagging r image digest rest], s.edit ((s.tree.remove (tagPath root r image tag)).getD s.tree))
  | .countingRevisions r image digest =>
    if s.tree.children (revisionPath root r image digest).dropLast = [] then
      ([.removingAll (imagePath root r image) (imagePath root r image).dropLast (r.dir root)], s)
    else ([.unlocking], s)
  | .statingImage r image =>
    if (s.tree.node (imageDir root r image)).isNone then ([.unlocking], s)
    else ([.removingAll (imagePath root r image) (imagePath root r image).dropLast (r.dir root)], s)
  | .removingAll path dir stop =>
    if s.tree.any fun e => path.isPrefixOf e.1 then
      -- one file or empty directory below at a time, in any order
      if path <+: input.leaf ∧ s.tree.children input.leaf = [] then
        ([.removingAll path dir stop], s.edit (s.tree.without fun q => q = input.leaf))
      else ([.removingAll path dir stop], s)
    else ([.pruning dir stop], s)
  | .pruning dir stop =>
    if dir ≠ stop ∧ text stop <+: text dir ∧ s.tree.node dir = some .dir ∧ s.tree.children dir = [] then
      ([.removingEmpty dir stop], s)
    else ([.unlocking], s)
  | .removingEmpty dir stop => ([.pruning dir.dropLast stop], s.edit ((s.tree.remove dir).getD s.tree))
  | .unlocking => ([], { s with lock := false })

def empty : Store := ⟨[], fun _ => none, fun _ => none, [], false, [], [], []⟩

end Store

def program : Program Store Thread Input := ⟨Store.advance unmarshal root⟩

end CloudBurrow.Registry
