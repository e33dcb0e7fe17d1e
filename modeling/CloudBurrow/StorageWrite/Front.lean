import CloudBurrow.StorageWrite.Streams

namespace CloudBurrow.StorageWrite

open Utf8 Threads

inductive Call where
  | create (table : ReadTable) (typ : StreamType)
  | get (name : StreamName)
  | append (name : StreamName) (offset : Option Int) (rows : List Row)
  | flush (name : StreamName) (offset : Option Int)
  | finalize (name : StreamName)
  | commit (parent : ReadTable) (names : List StreamName)

inductive Reply where
  | created (stream : Nat)
  | got (stream : Nat)
  | appended (stream start : Nat) (rows : List Bytes)
  | flushed (stream offset : Nat)
  | finalized (stream : Nat) (rowCount : Nat)
  | committed (streams : List Nat)
  | refused (refusal : Refusal) (wrote : List Placed)
deriving DecidableEq

structure Front where
  heap : List WriteStream
  streams : StreamName → Option Nat
  order : List StreamName
  locks : Finset Nat
  table : List Placed
  keeps : Bool
  disk : Disk
  drawn : List Bytes
  replies : List Reply

def Front.start (keeps : Bool) : Front := ⟨[], fun _ => none, [], ∅, [], keeps, ⟨∅, ∅⟩, [], []⟩

inductive Job where
  | append (stream : Nat) (rows : List Bytes)
  | flush (stream count offset : Nat)
  | commit (streams : List Nat)

def Job.streams : Job → List Nat
  | .append i _ => [i]
  | .flush i _ _ => [i]
  | .commit is => is

inductive Thread where
  | call (c : Call)
  | creating (st : WriteStream)
  | remembering (i : Nat)
  | makeDefault (c : Call) (name : StreamName)
  | rememberDefault (c : Call) (i : Nat)
  | forgetting (files : List (Bytes × Bool)) (next : Thread)
  | answering (r : Reply)
  | found (c : Call) (i : Nat)
  | opening (i : Nat) (rows : List Row)
  | writing (i : Nat) (rows : List Row)
  | accepting (i : Nat) (rows : List Row) (size : Nat)
  | looking (parent : ReadTable) (names todo seen : List StreamName) (found : List Nat)
      (errs : List (StreamError × StreamName))
  | locking (names : List StreamName) (todo locked : List Nat) (errs : List (StreamError × StreamName))
  | inserting (job : Job) (left : List (List Placed)) (wrote : List Placed)
  | committing (streams todo : List Nat)
  | dropping (streams : List Nat) (i : Nat) (todo : List Nat)

structure Input where
  ok : Bool
  written : Nat
  fresh : Bytes
  now : Int

namespace Front

variable (f : Front)

def reply (r : Reply) : List Thread × Front := ([], { f with replies := f.replies ++ [r] })

def refuse (r : Refusal) : List Thread × Front := f.reply (.refused r [])

def lock (i : Nat) : Front := { f with locks := insert i f.locks }

def unlock (is : List Nat) : Front := { f with locks := f.locks \ is.toFinset }

def setStream (i : Nat) (st : WriteStream) : Front := { f with heap := f.heap.set i st }

def saveStream (st : WriteStream) : Front :=
  if f.keeps && !st.isDef then { f with disk := { f.disk with states := f.disk.states.insert st.name.id st.saved } }
  else f

def saves (st : WriteStream) (ok : Bool) : Bool := ok || !f.keeps || st.isDef

def saveIf (ok : Bool) (st : WriteStream) : Front := if ok then f.saveStream st else f

def maxStreams : Nat := 100000

def remember (i : Nat) (name : StreamName) : Front × List StreamName :=
  let order := if f.streams name = none then f.order ++ [name] else f.order
  let streams := Function.update f.streams name (some i)
  if maxStreams ≤ order.length then
    let drop := order.take (order.length / 2)
    ({ f with streams := fun n => if n ∈ drop then none else streams n, order := order.drop drop.length }, drop)
  else ({ f with streams, order }, [])

def filesOf (names : List StreamName) : List (Bytes × Bool) := names.flatMap fun n => [(n.id, true), (n.id, false)]

def remembered (i : Nat) (name : StreamName) (next : Thread) : List Thread × Front :=
  let r := f.remember i name
  if r.1.keeps && !r.2.isEmpty then ([.forgetting (filesOf r.2) next], r.1) else ([next], r.1)

def removeFile (file : Bytes × Bool) : Front :=
  if file.2 then { f with disk := { f.disk with states := f.disk.states.erase file.1 } }
  else { f with disk := { f.disk with rows := f.disk.rows.erase file.1 } }

def heldRows (heap : List WriteStream) (i : Nat) : List Placed :=
  match heap[i]? with
  | some st => placed i st.flushed st.held
  | none => []

def commitRows (heap : List WriteStream) (names : List StreamName) (streams : List Nat) : List Placed :=
  names.flatMap fun n => streams.flatMap fun i =>
    if (heap[i]?.map WriteStream.name) = some n then heldRows heap i else []

def nameOf (heap : List WriteStream) (i : Nat) : Bytes := ((heap[i]?.map fun st => st.name.path)).getD []

def append (i : Nat) (st : WriteStream) (offset : Option Int) (rows : List Row) (again : Thread) :
    List Thread × Front :=
  if i ∈ f.locks then ([again], f)
  else
    match st.appendRefusal offset with
    | some r => f.refuse r
    | none =>
      match st.typ with
      | .committed =>
        ([.inserting (.append i (rows.map Row.json)) (insertBatches (placed i st.rows (rows.map Row.json))) []],
          f.lock i)
      | .pending | .buffered => ([.opening i rows], f.lock i)

def flush (i : Nat) (st : WriteStream) (offset : Option Int) (again : Thread) : List Thread × Front :=
  if st.typ ≠ .buffered ∨ st.isDef then f.refuse .notBuffered
  else
    match offset with
    | none => f.refuse .offsetRequired
    | some off =>
      if i ∈ f.locks then ([again], f)
      else if off < 0 ∨ (st.rows : Int) ≤ off then f.refuse .outOfRange
      else
        let off := off.toNat
        if st.flushed ≤ off then
          let n := off - st.flushed + 1
          ([.inserting (.flush i n off) (insertBatches (placed i st.flushed (st.held.take n))) []], f.lock i)
        else f.reply (.flushed i off)

def finalize (ok : Bool) (i : Nat) (st : WriteStream) (again : Thread) : List Thread × Front :=
  if st.isDef then f.refuse .defaultStream
  else if i ∈ f.locks then ([again], f)
  else
    let st' := st.finalizing
    if f.saves st' ok then ((f.saveStream st').setStream i st').reply (.finalized i st.rows)
    else f.refuse .keeping

def advanceFound (ok : Bool) (c : Call) (i : Nat) (st : WriteStream) : List Thread × Front :=
  match c with
  | .get _ => f.reply (.got i)
  | .append _ offset rows => f.append i st offset rows (.found c i)
  | .flush _ offset => f.flush i st offset (.found c i)
  | .finalize _ => f.finalize ok i st (.found c i)
  | .create _ _ | .commit _ _ => ([], f)

def lookup (ok : Bool) (c : Call) (name : StreamName) : List Thread × Front :=
  match f.streams name with
  | some i => ([.found c i], f)
  | none =>
    if name.id = defaultID ∧ ok then ([.makeDefault c name], f)
    else f.refuse .notFound

def advanceCall (input : Input) (c : Call) : List Thread × Front :=
  match c with
  | .create table typ =>
    if input.fresh ∈ f.drawn ∨ input.fresh = defaultID then ([.call c], f)
    else if input.ok then
      ([.creating (.new ⟨table, input.fresh⟩ typ false input.now)], { f with drawn := f.drawn ++ [input.fresh] })
    else f.refuse .notFound
  | .get name | .append name _ _ | .flush name _ | .finalize name => f.lookup input.ok c name
  | .commit parent names =>
    if names = [] then f.refuse .streamsRequired else ([.looking parent names names [] [] []], f)

def look (parent : ReadTable) (n : StreamName) : StreamError × StreamName ⊕ Nat :=
  match f.streams n with
  | none => .inl (.notFound, n)
  | some i =>
    match f.heap[i]? with
    | none => .inl (.notFound, n)
    | some st =>
      if st.isDef then .inl (.notFound, n)
      else if st.name.table ≠ parent then .inl (.invalidState, n)
      else if st.typ ≠ .pending then .inl (.invalidType, n)
      else .inr i

def inserted (ok : Bool) (job : Job) : List Thread × Front :=
  match job with
  | .append i rows =>
    match f.heap[i]? with
    | none => ([], f)
    | some st =>
      let st' := st.counting rows
      (((f.setStream i st').saveIf ok st').unlock [i]).reply (.appended i st.rows rows)
  | .flush i n off =>
    match f.heap[i]? with
    | none => ([], f)
    | some st =>
      let st' := st.flushing n
      (((f.setStream i st').saveIf ok st').unlock [i]).reply (.flushed i off)
  | .commit is => ([.committing is is], f)

def accept (ok : Bool) (i : Nat) (rows : List Row) (size : Nat) : List Thread × Front :=
  match f.heap[i]? with
  | none => ([], f)
  | some st =>
    let new := rows.map Row.json
    let st' := st.holding (if f.keeps then size else st.size) new
    if f.saves st' ok then
      (((f.setStream i st').saveStream st').unlock [i]).reply (.appended i st.rows new)
    else (f.unlock [i]).refuse .keeping

def fileOf (id : Bytes) : Bytes := (f.disk.rows[id]?).getD []

def setFile (id file : Bytes) : Front := { f with disk := { f.disk with rows := f.disk.rows.insert id file } }

def writeHeld (input : Input) (i : Nat) (rows : List Row) : List Thread × Front :=
  match f.heap[i]? with
  | none => ([], f)
  | some st =>
    let b := lines (rows.map Row.json)
    if input.ok then
      ([.accepting i rows (st.size + b.length)], f.setFile st.name.id (writeAt (f.fileOf st.name.id) st.size b))
    else
      ((f.setFile st.name.id (writeAt (f.fileOf st.name.id) st.size (b.take input.written))).unlock [i]).refuse
        .keeping

def openHeld (ok : Bool) (i : Nat) (rows : List Row) : List Thread × Front :=
  match f.heap[i]? with
  | none => ([], f)
  | some st =>
    if !f.keeps then ([.accepting i rows 0], f)
    else if ok then ([.writing i rows], f.setFile st.name.id (f.fileOf st.name.id))
    else (f.unlock [i]).refuse .keeping

def lockNext (names : List StreamName) (i : Nat) (rest locked : List Nat)
    (errs : List (StreamError × StreamName)) : List Thread × Front :=
  if i ∈ f.locks then ([.locking names (i :: rest) locked errs], f)
  else
    match f.heap[i]? with
    | none => ([], f)
    | some st =>
      let more := match st.commitError with | some e => [(e, st.name)] | none => []
      ([.locking names rest (locked ++ [i]) (errs ++ more)], f.lock i)

def advance (input : Input) : Thread → List Thread × Front
  | .call c => f.advanceCall input c
  | .creating st =>
    if f.saves st input.ok then
      ([.remembering f.heap.length], { f.saveStream st with heap := f.heap ++ [st] })
    else f.refuse .keeping
  | .remembering i =>
    match f.heap[i]? with
    | none => ([], f)
    | some st => f.remembered i st.name (.answering (.created i))
  | .makeDefault c name =>
    match f.streams name with
    | some i => ([.rememberDefault c i], f)
    | none =>
      ([.rememberDefault c f.heap.length], { f with heap := f.heap ++ [.new name .committed true input.now] })
  | .rememberDefault c i =>
    match f.heap[i]? with
    | none => ([], f)
    | some st => f.remembered i st.name (.found c i)
  | .forgetting [] next => ([next], f)
  | .forgetting (file :: files) next => ([.forgetting files next], if input.ok then f.removeFile file else f)
  | .answering r => f.reply r
  | .found c i =>
    match f.heap[i]? with
    | none => ([], f)
    | some st => f.advanceFound input.ok c i st
  | .opening i rows => f.openHeld input.ok i rows
  | .writing i rows => f.writeHeld input i rows
  | .accepting i rows size => f.accept input.ok i rows size
  | .looking _ names [] _ found errs =>
    ([.locking names (found.insertionSort fun a b => nameOf f.heap a ≤ nameOf f.heap b) [] errs], f)
  | .looking parent names (n :: todo) seen found errs =>
    if n ∈ seen then ([.looking parent names todo seen found errs], f)
    else
      match f.look parent n with
      | .inl e => ([.looking parent names todo (seen ++ [n]) found (errs ++ [e])], f)
      | .inr i => ([.looking parent names todo (seen ++ [n]) (found ++ [i]) errs], f)
  | .locking names (i :: rest) locked errs => f.lockNext names i rest locked errs
  | .locking names [] locked errs =>
    if errs ≠ [] then (f.unlock locked).refuse (.streamErrors errs)
    else ([.inserting (.commit locked) (insertBatches (commitRows f.heap names locked)) []], f)
  | .inserting job [] _ => f.inserted input.ok job
  | .inserting job (b :: rest) wrote =>
    if input.ok then ([.inserting job rest (wrote ++ b)], { f with table := f.table ++ b })
    else (f.unlock job.streams).reply (.refused .writing wrote)
  | .committing is [] => (f.unlock is).reply (.committed is)
  | .committing is (i :: todo) =>
    match f.heap[i]? with
    | none => ([], f)
    | some st =>
      let st' := st.committing
      ([.dropping is i todo], (f.setStream i st').saveIf input.ok st')
  | .dropping is i todo =>
    match f.heap[i]? with
    | none => ([], f)
    | some st =>
      ([.committing is todo], if f.keeps && input.ok then f.removeFile (st.name.id, false) else f)

end Front

def program : Program Front Thread Input := ⟨fun input t f => f.advance input t⟩

end CloudBurrow.StorageWrite
