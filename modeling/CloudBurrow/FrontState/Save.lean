import CloudBurrow.Codec.Utf8
import CloudBurrow.Process.Triple

namespace CloudBurrow.FrontState

open Utf8 Transaction

structure Disk where
  records : Option Bytes
  copies : Std.ExtTreeMap Bytes Bytes

structure Store (D : Type) where
  last : Option Bytes
  written : Std.ExtTreeMap Bytes D

def Store.opened {D : Type} : Store D := ⟨none, ∅⟩

inductive Outcome where
  | done
  | failed
  | stopped
deriving DecidableEq

inductive Halt where
  | failed
  | stopped
deriving DecidableEq

structure Site (D : Type) where
  disk : Disk
  store : Store D
  outcomes : List Outcome

abbrev Act (D : Type) := Txn (Site D) Halt

structure Save (D : Type) where
  records : Bytes
  copies : List (Bytes × D)
  distinct : (copies.map Prod.fst).Nodup

section Save

variable {D : Type} [DecidableEq D]

def fileOp (f : Disk → Disk) : Act D Unit := fun s =>
  match s.outcomes.headD .done with
  | .done => (.ok (), { s with disk := f s.disk, outcomes := s.outcomes.tail })
  | .failed => (.error .failed, { s with outcomes := s.outcomes.tail })
  | .stopped => (.error .stopped, { s with outcomes := s.outcomes.tail })

def remove (key : Bytes) : Act D Unit := fun s =>
  match s.outcomes.headD .done with
  | .done =>
    (.ok (), { s with disk := { s.disk with copies := s.disk.copies.erase key }, outcomes := s.outcomes.tail })
  | .failed => (.ok (), { s with outcomes := s.outcomes.tail })
  | .stopped => (.error .stopped, { s with outcomes := s.outcomes.tail })

def remember (f : Store D → Store D) : Act D Unit := .write fun s => { s with store := f s.store }

def writeCopy (encode : D → Option Bytes) (e : Bytes × D) : Act D Unit := do
  let written ← Txn.read fun s => s.store.written[e.1]?
  if written = some e.2 then pure ()
  else
    match encode e.2 with
    | none => .refuse .failed
    | some data => do
      fileOp fun d => { d with copies := d.copies.insert e.1 data }
      remember fun st => { st with written := st.written.insert e.1 e.2 }

def writeRecords (records : Bytes) : Act D Unit := do
  let last ← Txn.read fun s => s.store.last
  if last = some records then pure ()
  else do
    fileOp fun d => { d with records := some records }
    remember fun st => { st with last := some records }

def save (encode : D → Option Bytes) (s : Save D) : Act D Unit := do
  Txn.forEach s.copies (writeCopy encode)
  writeRecords s.records
  fileOp id
  let entries ← Txn.read fun s => s.disk.copies.keys
  Txn.forEach entries fun key =>
    if key ∈ s.copies.map Prod.fst then pure ()
    else do
      remove key
      remember fun st => { st with written := st.written.erase key }

inductive Call (D : Type) where
  | save (s : Save D) (outcomes : List Outcome)
  | markRead (key : Bytes) (data : D)
  | restart

def Call.run (encode : D → Option Bytes) (c : Call D) (x : Disk × Store D) : Disk × Store D :=
  match c with
  | .save s outcomes =>
    match FrontState.save encode s ⟨x.1, x.2, outcomes⟩ with
    | (.error .stopped, t) => (t.disk, .opened)
    | (_, t) => (t.disk, t.store)
  | .markRead key data => (x.1, { x.2 with written := x.2.written.insert key data })
  | .restart => (x.1, .opened)

def Call.saves : Call D → List (Save D)
  | .save s _ => [s]
  | _ => []

def runAll (encode : D → Option Bytes) (calls : List (Call D)) (x : Disk × Store D) : Disk × Store D :=
  calls.foldl (fun x c => c.run encode x) x

def start : Disk × Store D := (⟨none, ∅⟩, .opened)

end Save

section Whole

variable {D : Type} (encode : D → Option Bytes)

def Holds (disk : Disk) (s : Save D) : Prop :=
  ∀ e ∈ s.copies, ∃ data, encode e.2 = some data ∧ disk.copies[e.1]? = some data

def Whole (past : List (Save D)) (disk : Disk) : Prop :=
  ∀ records, disk.records = some records → ∃ s ∈ past, s.records = records ∧ Holds encode disk s

def SameCopies (past : List (Save D)) (disk : Disk) (s : Save D) : Prop :=
  ∀ p ∈ past, disk.records = some p.records → ∀ e ∈ p.copies, ∀ e' ∈ s.copies, e.1 = e'.1 →
    encode e.2 = encode e'.2

structure Faithful (disk : Disk) (store : Store D) : Prop where
  last : ∀ records, store.last = some records → disk.records = some records
  written : ∀ (key : Bytes) d, store.written[key]? = some d →
    ∃ data, encode d = some data ∧ disk.copies[key]? = some data

end Whole

end CloudBurrow.FrontState
