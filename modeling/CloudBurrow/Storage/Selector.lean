import CloudBurrow.Storage.Records

namespace CloudBurrow.Storage

open Utf8

def indexOf (sub : Bytes) : Bytes → Option Nat
  | [] => if sub = [] then some 0 else none
  | b :: s => if sub.isPrefixOf (b :: s) then some 0 else (indexOf sub s).map (· + 1)

namespace NameSelector

def inRange (sel : NameSelector) (name : Bytes) : Bool :=
  if (sel.start ≠ [] ∧ name < sel.start) ∨ (sel.stop ≠ [] ∧ ¬ name < sel.stop) then false
  else match sel.glob with
    | none => true
    | some matchString => matchString name

def fold (sel : NameSelector) (name : Bytes) : Bytes :=
  if sel.delimiter = [] then []
  else match indexOf sel.delimiter (name.drop sel.namePrefix.length) with
    | some i => name.take (sel.namePrefix.length + i + sel.delimiter.length)
    | none => []

def itemOf (sel : NameSelector) (name p : Bytes) : Bool :=
  decide (p = []) || (sel.trailing && decide (name = p))

def selects (sel : NameSelector) (name : Bytes) : Bool :=
  if !sel.namePrefix.isPrefixOf name || !sel.inRange name then false
  else sel.itemOf name (sel.fold name)

end NameSelector

end CloudBurrow.Storage
