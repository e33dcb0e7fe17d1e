import CloudBurrow.Codec.JsonText
import CloudBurrow.Process.Transaction
import CloudBurrow.Storage.Store

namespace CloudBurrow.Storage

open Utf8 JsonText Transaction

structure HttpError where
  status : Nat
  reason : Bytes
  message : Bytes
deriving DecidableEq

def errorf (status : Nat) (reason : String) (message : Bytes) : HttpError :=
  { status, reason := ascii reason, message }

def badRequest (message : Bytes) : HttpError := errorf 400 "invalid" message

def required (field : String) : HttpError :=
  errorf 400 "required" (ascii "Required parameter: " ++ ascii field)

def notFound (message : Bytes) : HttpError := errorf 404 "notFound" message

def conflict (message : Bytes) : HttpError := errorf 409 "conflict" message

def preconditionFailed (message : Bytes) : HttpError := errorf 412 "conditionNotMet" message

def noBucket : HttpError := notFound (ascii "The specified bucket does not exist.")

def noObject (bucket name : Bytes) : HttpError :=
  notFound (ascii "No such object: " ++ objectKey bucket name)

def padded (width n : Nat) : Bytes :=
  List.replicate (width - (decimal n).length) 48 ++ decimal n

def paddedInteger (width : Nat) (n : Int) : Bytes :=
  if n < 0 then 45 :: padded (width - 1) n.natAbs else padded width n.natAbs

def unixEpoch : Time := 62135596800 * second

def unixMilli (t : Time) : Int := (t - unixEpoch) / 1000000

def leap (year : Nat) : Bool := year % 4 == 0 && (year % 100 != 0 || year % 400 == 0)

def monthLengths (year : Nat) : List Nat :=
  [31, if leap year then 29 else 28, 31, 30, 31, 30, 31, 31, 30, 31, 30, 31]

def monthDay : List Nat → Nat → Nat → Nat × Nat
  | [], month, rest => (month, rest + 1)
  | n :: lengths, month, rest =>
    if rest < n then (month, rest + 1) else monthDay lengths (month + 1) (rest - n)

def yearDay (days : Nat) : Nat × Nat :=
  let cycle := days % 146097
  let century := min 3 (cycle / 36524)
  let inCentury := cycle - century * 36524
  let inFour := inCentury % 1461
  let single := min 3 (inFour / 365)
  (1 + 400 * (days / 146097) + 100 * century + 4 * (inCentury / 1461) + single,
    inFour - single * 365)

def dateTime (t : Time) : Bytes :=
  let seconds := (t / second).toNat
  let (year, inYear) := yearDay (seconds / 86400)
  let (month, date) := monthDay (monthLengths year) 1 inYear
  padded 4 year ++ ascii "-" ++ padded 2 month ++ ascii "-" ++ padded 2 date ++ ascii "T" ++
    padded 2 (seconds / 3600 % 24) ++ ascii ":" ++ padded 2 (seconds / 60 % 60) ++ ascii ":" ++
    padded 2 (seconds % 60)

def rfc3339 (t : Time) : Bytes :=
  dateTime t ++ ascii "." ++ padded 3 ((t / 1000000).toNat % 1000) ++ ascii "Z"

def rfc3339Nano (t : Time) : Bytes :=
  let nanos := t.toNat % 1000000000
  let fraction := ((padded 9 nanos).reverse.dropWhile fun b => b = 48).reverse
  dateTime t ++ (if nanos = 0 then [] else ascii "." ++ fraction) ++ ascii "Z"

structure Tx where
  store : Store
  lastGen : Int
  outboxSeq : Nat
  clock : List Int
  random : List Bytes

abbrev Action (A : Type) : Type := Txn Tx HttpError A

namespace Tx

def get (k : Kind) (key : Bytes) : Action (Option (Val k)) := .read fun tx => tx.store.get k key

def put (k : Kind) (key : Bytes) (v : Val k) : Action Unit :=
  .write fun tx => { tx with store := tx.store.put k key v }

def delete (k : Kind) (key : Bytes) : Action Unit :=
  .write fun tx => { tx with store := tx.store.delete k key }

def list (k : Kind) (start : Bytes) : Action (List Bytes) :=
  .read fun tx => tx.store.list k start

end Tx

structure Beside (ks : List Kind) (tx tx' : Tx) : Prop where
  store : ∀ k ∉ ks, tx'.store k = tx.store k
  lastGen : tx'.lastGen = tx.lastGen
  clock : tx'.clock = tx.clock

namespace Beside

variable {ks : List Kind} {tx tx' : Tx}

instance : Std.Refl (Beside ks) := ⟨fun _ => ⟨fun _ _ => rfl, rfl, rfl⟩⟩

instance : IsTrans Tx (Beside ks) where
  trans _ _ _ h h' :=
    ⟨fun k hk => (h'.store k hk).trans (h.store k hk), h'.lastGen.trans h.lastGen,
      h'.clock.trans h.clock⟩

theorem mono {ks' : List Kind} (h : Beside ks tx tx') (hk : ks ⊆ ks') : Beside ks' tx tx' :=
  ⟨fun k hn => h.store k fun hm => hn (hk hm), h.lastGen, h.clock⟩

variable {k : Kind}

theorem get (h : Beside ks tx tx') (hk : k ∉ ks) (key : Bytes) : tx'.store.get k key = tx.store.get k key := by
  simp only [Store.get, h.store k hk]

theorem put (hk : k ∈ ks) (key : Bytes) (v : Val k) (tx : Tx) :
    Beside ks tx { tx with store := tx.store.put k key v } :=
  ⟨fun _ hk' => Store.put_other _ (ne_of_mem_of_not_mem hk hk').symm key v, rfl, rfl⟩

theorem delete (hk : k ∈ ks) (key : Bytes) (tx : Tx) : Beside ks tx { tx with store := tx.store.delete k key } :=
  ⟨fun _ hk' => Store.delete_other _ (ne_of_mem_of_not_mem hk hk').symm key, rfl, rfl⟩

end Beside

variable {ks : List Kind}

theorem runs_put {k : Kind} (hk : k ∈ ks) (key : Bytes) (v : Val k) :
    Runs (Beside ks) (Tx.put k key v) := runs_write (Beside.put hk key v)

theorem runs_delete {k : Kind} (hk : k ∈ ks) (key : Bytes) :
    Runs (Beside ks) (Tx.delete k key) := runs_write (Beside.delete hk key)

theorem runs_get (k : Kind) (key : Bytes) : Runs (Beside ks) (Tx.get k key) := runs_read _

theorem runs_list (k : Kind) (start : Bytes) : Runs (Beside ks) (Tx.list k start) := runs_read _

def generationAfter (lastGen micros : Int) : Int :=
  if micros ≤ lastGen then lastGen + 1 else micros

theorem lt_generationAfter (lastGen micros : Int) : lastGen < generationAfter lastGen micros := by
  unfold generationAfter
  split_ifs with h <;> omega

def nextGeneration : Action Int := fun tx =>
  let g := generationAfter tx.lastGen (tx.clock.headD 0)
  (.ok g, { tx with lastGen := g, clock := tx.clock.tail })

def hexText (s : Bytes) : Bytes :=
  s.flatMap fun b => [hexDigit (b.toNat / 16), hexDigit (b.toNat % 16)]

def outboxKey (t : Time) : Action Bytes := fun tx =>
  let seq := tx.outboxSeq + 1
  (.ok (paddedInteger 20 (t - unixEpoch) ++ ascii "-" ++ padded 12 seq ++ ascii "-" ++
      hexText (tx.random.headD [])),
    { tx with outboxSeq := seq, random := tx.random.tail })

theorem runs_outboxKey (t : Time) : Runs (Beside ks) (outboxKey t) :=
  fun _ => ⟨_, _, rfl, fun _ _ => rfl, rfl, rfl⟩

def getBucket (name : Bytes) : Action (Option BucketRecord) := Tx.get .bucket name

def putBucket (b : BucketRecord) : Action Unit := Tx.put .bucket b.name b

def existingBucket (name : Bytes) : Action BucketRecord := do
  match ← getBucket name with
  | none => .refuse noBucket
  | some b => pure b

theorem existingBucket_none_bind {A : Type} {f : BucketRecord → Action A} {tx : Tx} {name : Bytes}
    (h : tx.store.get .bucket name = none) : (existingBucket name >>= f) tx = (.error noBucket, tx) := by
  have hrun : existingBucket name tx = (.error noBucket, tx) := by
    have hget : getBucket name tx = (.ok none, tx) := by
      rw [← h]
      rfl
    rw [existingBucket, Txn.bind_ok hget]
    rfl
  rw [Txn.run_bind, hrun]

theorem existingBucket_some_bind {A : Type} {f : BucketRecord → Action A} {tx : Tx} {name : Bytes}
    {b : BucketRecord} (h : tx.store.get .bucket name = some b) :
    (existingBucket name >>= f) tx = f b tx := by
  have hget : getBucket name tx = (.ok (some b), tx) := by
    rw [← h]
    rfl
  have hrun : existingBucket name tx = (.ok b, tx) := by
    rw [existingBucket, Txn.bind_ok hget]
    rfl
  rw [Txn.bind_ok hrun]

def getObject (bucket name : Bytes) : Action (Option ObjectRecord) :=
  Tx.get .object (objectKey bucket name)

def putObject (o : ObjectRecord) : Action Unit :=
  Tx.put .object (objectKey o.bucket o.name) o.recode

end CloudBurrow.Storage
