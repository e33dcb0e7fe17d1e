import CloudBurrow.Codec.Utf8
import CloudBurrow.Disk.Tree

namespace CloudBurrow.Registry

open Utf8 FileTree

section Names

def isAlnum (b : UInt8) : Bool := inRange 97 122 b || inRange 48 57 b

inductive Scan where
  | start | word | dot | bar | bars | dashes
deriving DecidableEq

def Scan.next (s : Scan) (b : UInt8) : Option Scan :=
  if isAlnum b then some .word
  else match s with
    | .word => if b = 46 then some .dot else if b = 95 then some .bar else if b = 45 then some .dashes else none
    | .bar => if b = 95 then some .bars else none
    | .dashes => if b = 45 then some .dashes else none
    | _ => none

def componentRE (c : Bytes) : Bool := c.foldlM Scan.next .start = some .word

def validImage (image : Bytes) : Bool :=
  image ≠ [] && image.length ≤ 255 &&
    (image.splitOn 47).all fun c => componentRE c && !(ascii "_").isPrefixOf c

def isTagStart (b : UInt8) : Bool := inRange 97 122 b || inRange 65 90 b || inRange 48 57 b || b = 95

def validTag : Bytes → Bool
  | [] => false
  | b :: rest => isTagStart b && rest.length ≤ 127 && rest.all fun b => isTagStart b || b = 46 || b = 45

def isHex (b : UInt8) : Bool := inRange 97 102 b || inRange 48 57 b

def trimPrefix (p s : Bytes) : Bytes := if p.isPrefixOf s then s.drop p.length else s

def validDigest (d : Bytes) : Bool :=
  (ascii "sha256:").isPrefixOf d && (d.drop 7).length = 64 && (d.drop 7).all isHex

end Names

section Paths

def clean (raw : Path) : Path :=
  raw.foldl (fun out c => if c = [] ∨ c = ascii "." then out else if c = ascii ".." then out.dropLast else out ++ [c]) []

def join (base : Path) (parts : List Bytes) : Path := clean (base ++ parts.flatMap fun part => part.splitOn 47)

def manifestsDir : Name := ascii "_manifests"

structure Plain (n : Name) : Prop where
  nonempty : n ≠ []
  slash : 47 ∉ n
  dot : n ≠ ascii "."
  dots : n ≠ ascii ".."

structure Root where
  path : Path
  plain : ∀ n ∈ path, Plain n
  ordinary : manifestsDir ∉ path

structure Repo where
  location : Name
  project : Name
  repository : Name
  plain : ∀ n ∈ [location, project, repository], Plain n
  ordinary : manifestsDir ∉ [location, project, repository]
deriving DecidableEq

variable (root : Root) (r : Repo) (image : Bytes)

def Repo.dir : Path := join root.path [ascii "repos", r.location, r.project, r.repository]

def imagePath : Path := join (r.dir root) [image]

def imageDir : Path := join (r.dir root) [image, manifestsDir]

def revisionPath (digest : Bytes) : Path :=
  join (imageDir root r image) [ascii "revisions", ascii "sha256", trimPrefix (ascii "sha256:") digest]

def tagPath (tag : Bytes) : Path := join (imageDir root r image) [ascii "tags", tag]

def text (p : Path) : Bytes := p.flatMap fun n => 47 :: n

end Paths

section Trimming

def spaces : List Bytes :=
  [[9], [10], [11], [12], [13], [32], [0xC2, 0x85], [0xC2, 0xA0], [0xE1, 0x9A, 0x80], [0xE2, 0x80, 0x80],
    [0xE2, 0x80, 0x81], [0xE2, 0x80, 0x82], [0xE2, 0x80, 0x83], [0xE2, 0x80, 0x84], [0xE2, 0x80, 0x85],
    [0xE2, 0x80, 0x86], [0xE2, 0x80, 0x87], [0xE2, 0x80, 0x88], [0xE2, 0x80, 0x89], [0xE2, 0x80, 0x8A],
    [0xE2, 0x80, 0xA8], [0xE2, 0x80, 0xA9], [0xE2, 0x80, 0xAF], [0xE2, 0x81, 0x9F], [0xE3, 0x80, 0x80]]

def trimStart (marks : List Bytes) : Nat → Bytes → Bytes
  | 0, s => s
  | n + 1, s =>
    match marks.find? fun mark => mark.isPrefixOf s with
    | none => s
    | some mark => trimStart marks n (s.drop mark.length)

def trimSpace (s : Bytes) : Bytes :=
  let left := trimStart spaces s.length s
  (trimStart (spaces.map List.reverse) left.length left.reverse).reverse

end Trimming

inductive Fault where
  | blobUnknown | manifestUnknown | uploadUnknown | digestInvalid | nameInvalid | tagInvalid | io
deriving DecidableEq

section Content

variable (root : Root) (r : Repo) (image : Bytes) (t : Tree)

def listedAs (p : Path) : Option Bytes :=
  if r.dir root <+: p then
    match (p.drop (r.dir root).length).reverse with
    | last :: rev =>
      if last = manifestsDir ∧ manifestsDir ∉ rev then
        some (if rev = [] then ascii "." else [47].intercalate rev.reverse)
      else none
    | [] => none
  else none

def images : List Bytes :=
  ((t.map Prod.fst).dedup.filterMap fun p => if t.node p = some .dir then listedAs root r p else none).insertionSort
    (· ≤ ·)

def tagsLocked : Except Fault (List (Name × Bytes)) :=
  if !validImage image then .error .nameInvalid
  else if t.node (imageDir root r image) = none then .error .nameInvalid
  else
    .ok ((t.children (join (imageDir root r image) [ascii "tags"])).filterMap fun e =>
      match t.node (join (imageDir root r image) [ascii "tags", e]) with
      | some (.file b) => some (e, trimSpace b)
      | _ => none)

end Content

section Pushing

variable (root : Root) (r : Repo) (image : Bytes) (t : Tree)

def putRevision (digest mediaType : Bytes) : Option Tree :=
  (t.mkdirAll (revisionPath root r image digest).dropLast).bind fun t =>
    t.writeFile (revisionPath root r image digest) mediaType

def setTagLocked (tag digest : Bytes) : Option Tree :=
  (t.mkdirAll (tagPath root r image tag).dropLast).bind fun t => t.writeFile (tagPath root r image tag) digest

end Pushing

section Deleting

variable (root : Root) (r : Repo) (image : Bytes) (t : Tree)

def pruneEmptyFor (stop : Path) : Nat → Path → Tree → Tree
  | 0, _, t => t
  | n + 1, dir, t =>
    if dir ≠ stop ∧ text stop <+: text dir then
      if t.node dir = some .dir ∧ t.children dir = [] then
        pruneEmptyFor stop n dir.dropLast ((t.remove dir).getD t)
      else t
    else t

def pruneEmpty (dir stop : Path) : Tree := pruneEmptyFor stop dir.length dir t

def deleteTag (tag : Bytes) : Except Fault Tree :=
  if !validTag tag then .error .manifestUnknown
  else
    match t.remove (tagPath root r image tag) with
    | none => .error .manifestUnknown
    | some t => .ok t

def dropTags (digest : Bytes) (tags : List (Name × Bytes)) : Tree :=
  tags.foldl (fun t e => if e.2 = digest then (t.remove (tagPath root r image e.1)).getD t else t) t

def tagsOf : List (Name × Bytes) :=
  match tagsLocked root r image t with
  | .ok tags => tags
  | .error _ => []

def deleteManifest (digest : Bytes) : Except Fault Tree :=
  if !validDigest digest then .error .manifestUnknown
  else
    match t.remove (revisionPath root r image digest) with
    | none => .error .manifestUnknown
    | some t =>
      let t := dropTags root r image t digest (tagsOf root r image t)
      .ok (if t.children (revisionPath root r image digest).dropLast = [] then
          pruneEmpty (t.removeAll (imagePath root r image)) (imagePath root r image).dropLast (r.dir root)
        else t)

def deleteImage : Except Fault Tree :=
  if !validImage image then .error .nameInvalid
  else if t.node (imageDir root r image) = none then .error .nameInvalid
  else .ok (pruneEmpty (t.removeAll (imagePath root r image)) (imagePath root r image).dropLast (r.dir root))

def deleteRepository : Except Fault Tree :=
  .ok (pruneEmpty (t.removeAll (r.dir root)) (r.dir root).dropLast (join root.path [ascii "repos"]))

end Deleting

end CloudBurrow.Registry
