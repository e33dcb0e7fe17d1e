import CloudBurrow.Codec.Utf8
import CloudBurrow.Process.Threads

namespace CloudBurrow.StorageWrite

open Utf8

structure ReadTable where
  project : Bytes
  dataset : Bytes
  table : Bytes
deriving DecidableEq

structure StreamName where
  table : ReadTable
  id : Bytes
deriving DecidableEq

def ReadTable.path (t : ReadTable) : Bytes :=
  ascii "projects/" ++ t.project ++ ascii "/datasets/" ++ t.dataset ++ ascii "/tables/" ++ t.table

def StreamName.path (n : StreamName) : Bytes := n.table.path ++ ascii "/streams/" ++ n.id

def defaultID : Bytes := ascii "_default"

inductive StreamType where
  | committed
  | pending
  | buffered
deriving DecidableEq

structure Row where
  json : Bytes
  noNewline : 10 ∉ json
  noReturn : 13 ∉ json
deriving DecidableEq

structure WriteStream where
  name : StreamName
  typ : StreamType
  isDef : Bool
  created : Int
  rows : Nat
  held : List Bytes
  finalized : Bool
  committed : Bool
  size : Nat
  appended : List Bytes
deriving DecidableEq

def WriteStream.holds (st : WriteStream) : Bool := st.typ = .pending || st.typ = .buffered

def WriteStream.new (name : StreamName) (typ : StreamType) (isDef : Bool) (created : Int) : WriteStream :=
  ⟨name, typ, isDef, created, 0, [], false, false, 0, []⟩

def WriteStream.flushed (st : WriteStream) : Nat := st.rows - st.held.length

def WriteStream.counting (st : WriteStream) (rows : List Bytes) : WriteStream :=
  { st with rows := st.rows + rows.length, appended := st.appended ++ rows }

def WriteStream.holding (st : WriteStream) (size : Nat) (rows : List Bytes) : WriteStream :=
  { st with
    size := size, held := st.held ++ rows, rows := st.rows + rows.length, appended := st.appended ++ rows }

def WriteStream.flushing (st : WriteStream) (n : Nat) : WriteStream := { st with held := st.held.drop n }

def WriteStream.finalizing (st : WriteStream) : WriteStream := { st with finalized := true }

def WriteStream.committing (st : WriteStream) : WriteStream := { st with held := [], committed := true }

structure Placed where
  stream : Nat
  offset : Nat
  row : Bytes
deriving DecidableEq

def Placed.place (p : Placed) : Nat × Nat := (p.stream, p.offset)

def placed (i : Nat) : Nat → List Bytes → List Placed
  | _, [] => []
  | offset, row :: rows => ⟨i, offset, row⟩ :: placed i (offset + 1) rows

def insertAllBatch : Nat := 4 * 2 ^ 20

def takeBatch (size : Nat) : List Placed → List Placed × List Placed
  | [] => ([], [])
  | r :: rest =>
    if size + r.row.length ≤ insertAllBatch then
      let b := takeBatch (size + r.row.length + 16) rest
      (r :: b.1, b.2)
    else ([], r :: rest)

def batches : Nat → List Placed → List (List Placed)
  | 0, _ => []
  | _, [] => []
  | fuel + 1, r :: rest =>
    let b := takeBatch (r.row.length + 16) rest
    (r :: b.1) :: batches fuel b.2

def insertBatches (rows : List Placed) : List (List Placed) := batches rows.length rows

inductive StreamError where
  | notFound
  | invalidState
  | invalidType
  | alreadyCommitted
deriving DecidableEq

inductive Refusal where
  | notFound
  | defaultStream
  | keeping
  | writing
  | finalized
  | offsetExists (expected received : Int)
  | offsetBeyond (expected received : Int)
  | streamsRequired
  | streamErrors (errs : List (StreamError × StreamName))
  | notBuffered
  | offsetRequired
  | outOfRange
deriving DecidableEq

def WriteStream.appendRefusal (st : WriteStream) (offset : Option Int) : Option Refusal :=
  if st.finalized || st.committed then some .finalized
  else
    match offset with
    | none => none
    | some v =>
      if st.isDef then some .defaultStream
      else if v < st.rows then some (.offsetExists st.rows v)
      else if (st.rows : Int) < v then some (.offsetBeyond st.rows v)
      else none

def WriteStream.commitError (st : WriteStream) : Option StreamError :=
  if st.committed then some .alreadyCommitted
  else if st.finalized then none
  else some .invalidState

structure SavedStream where
  name : StreamName
  typ : StreamType
  created : Int
  rows : Nat
  flushed : Nat
  bytes : Nat
  finalized : Bool
  committed : Bool
  appended : List Bytes
deriving DecidableEq

def WriteStream.saved (st : WriteStream) : SavedStream :=
  ⟨st.name, st.typ, st.created, st.rows, if st.holds then st.flushed else 0, st.size, st.finalized, st.committed,
    st.appended⟩

structure Disk where
  states : Std.ExtTreeMap Bytes SavedStream
  rows : Std.ExtTreeMap Bytes Bytes

def newline : UInt8 := 10

def lines (rows : List Bytes) : Bytes := rows.flatMap (· ++ [newline])

def writeAt (file : Bytes) (offset : Nat) (b : Bytes) : Bytes :=
  file.take offset ++ List.replicate (offset - file.length) 0 ++ b ++ file.drop (offset + b.length)

end CloudBurrow.StorageWrite
