import CloudBurrow.Codec.Utf8

namespace CloudBurrow.Tasks

open Utf8

abbrev Time := Int

def slash : UInt8 := 47

def hyphen : UInt8 := 45

def lowerLetter (b : UInt8) : Bool := inRange 97 122 b

def upperLetter (b : UInt8) : Bool := inRange 65 90 b

def digit (b : UInt8) : Bool := inRange 48 57 b

def letterOrDigit (b : UInt8) : Bool := lowerLetter b || upperLetter b || digit b

def lowerOrDigit (b : UInt8) : Bool := lowerLetter b || digit b

structure Name where
  project : Bytes
  location : Bytes
  collection : Bytes
  id : Bytes
  parentCollection : Bytes
  parentID : Bytes
deriving DecidableEq

def validProjectID (id : Bytes) : Bool :=
  decide (6 ≤ id.length) && decide (id.length ≤ 30) && id.head?.any lowerLetter &&
    id.getLast?.any lowerOrDigit && id.all fun b => lowerOrDigit b || b == hyphen

def validLocation (id : Bytes) : Bool :=
  match id.splitOn hyphen with
  | [] => false
  | first :: rest =>
    !first.isEmpty && first.all lowerLetter &&
      rest.all fun part => !part.isEmpty && part.all lowerOrDigit

def contains (part text : Bytes) : Bool := text.tails.any fun rest => part.isPrefixOf rest

def toLower (b : UInt8) : UInt8 := if upperLetter b then b + 32 else b

def validID (id : Bytes) : Bool :=
  let lower := id.map toLower
  !([ascii "%2f", ascii "%5c", ascii "%2e%2e", ascii ".."].any (contains · lower)) &&
    decide (id.length ≤ 500) && id.head?.any letterOrDigit &&
    id.all fun b => letterOrDigit b || (ascii "._~%+-").contains b

def parse (name : Bytes) : Option Name :=
  match name.splitOn slash with
  | [projects, project, locations, location, collection, id] =>
    if projects == ascii "projects" && locations == ascii "locations" &&
        validProjectID project && validLocation location && !collection.isEmpty && validID id then
      some ⟨project, location, collection, id, [], []⟩
    else none
  | [projects, project, locations, location, collection, id, child, childID] =>
    if projects == ascii "projects" && locations == ascii "locations" &&
        validProjectID project && validLocation location && !collection.isEmpty && validID id &&
        !child.isEmpty && validID childID then
      some ⟨project, location, child, childID, collection, id⟩
    else none
  | _ => none

def Name.locationName (n : Name) : Bytes :=
  ascii "projects/" ++ n.project ++ ascii "/locations/" ++ n.location

def queueID (id : Bytes) : Bool :=
  decide (1 ≤ id.length) && decide (id.length ≤ 100) && id.all fun b => letterOrDigit b || b == hyphen

def taskID (id : Bytes) : Bool :=
  decide (1 ≤ id.length) && decide (id.length ≤ 500) &&
    id.all fun b => letterOrDigit b || b == hyphen || b == 95

def under (queue : Bytes) : Bytes := queue ++ ascii "/tasks/"

end CloudBurrow.Tasks
