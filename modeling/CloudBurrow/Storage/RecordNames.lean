import CloudBurrow.Storage.Buckets
import CloudBurrow.Storage.LogRecord

namespace CloudBurrow.LogRecord

open Utf8 JsonText Metastore
open Storage (Kind slash validBucketName validObjectName named_of_validBucketName)

inductive Named where
  | ofBucket (kind : Kind) (bucket : Bytes)
  | ofObject (kind : Kind) (bucket name : Bytes)

def Named.key : Named → Bytes
  | .ofBucket kind bucket => kind.text ++ bucket
  | .ofObject kind bucket name => kind.text ++ bucket ++ slash :: name

def Named.Admitted : Named → Prop
  | .ofBucket _ bucket => validBucketName bucket = none
  | .ofObject _ bucket name => validBucketName bucket = none ∧ validObjectName name = none

def Named.ValidName : Named → Prop
  | .ofBucket _ _ => True
  | .ofObject _ _ name => Valid name

inductive Change where
  | put (value : Bytes)
  | append (elem : Bytes)
  | delete

def Change.write (key : Named) : Change → Write
  | .put value => .put key.key value
  | .append elem => .append key.key elem
  | .delete => .delete key.key

def RoundTrips (ops : List Op) : Prop :=
  (∀ rest, readBytes (line ops ++ rest) = some (line ops, rest)) ∧
    (parse (line ops)).bind decodeRecord = some (ops, opsCRC ops)

theorem valid_kind (k : Kind) : Valid k.text := by
  cases k <;> decide

theorem Named.valid_key {k : Named} (h : k.Admitted) : Valid k.key ↔ k.ValidName := by
  cases k with
  | ofBucket kind bucket =>
    have hb := (named_of_validBucketName h).2
    simp only [Named.key, Named.ValidName, valid_append _ (valid_kind kind), hb]
  | ofObject kind bucket name =>
    have hb := (named_of_validBucketName h.1).2
    have hslash : Valid (slash :: name) ↔ Valid name := valid_append (s := [slash]) name (by decide)
    have hpre : Valid (kind.text ++ bucket) := (valid_append _ (valid_kind kind)).mpr hb
    simp only [Named.key, Named.ValidName, valid_append _ hpre, hslash]

theorem roundTrips_iff (ops : List Op) : RoundTrips ops ↔ ValidKeys ops := by
  have hsame : ops.map (fun o => (⟨toValid o.key, o.value, o.del, o.append⟩ : Op)) = ops ↔ ValidKeys ops := by
    induction ops with
    | nil => simp [ValidKeys]
    | cons o ops ih =>
      have hhead : (⟨toValid o.key, o.value, o.del, o.append⟩ : Op) = o ↔ Valid o.key := by
        rw [← toValid_eq_self]
        constructor
        · exact fun heq => congrArg Op.key heq
        · exact fun heq => by rw [heq]
      simp only [ValidKeys] at ih
      simp only [List.map_cons, List.cons.injEq, ih, hhead, ValidKeys, List.forall_mem_cons]
  constructor
  · rintro ⟨-, hdecoded⟩
    rw [decodeRecord_line, Option.some.injEq, Prod.mk.injEq] at hdecoded
    exact hsame.mp hdecoded.1
  · intro hvalid
    refine ⟨readBytes_line ops, ?_⟩
    rw [decodeRecord_line, hsame.mpr hvalid]

theorem record_round_trips_iff (base : Map) (tx : List (Named × Change)) (h : ∀ w ∈ tx, w.1.Admitted) :
    RoundTrips (MemTx.run base (tx.map fun w => w.2.write w.1)).ordered ↔ ∀ w ∈ tx, w.1.ValidName := by
  have hkey : ∀ w : Named × Change, (w.2.write w.1).op.key = w.1.key := by
    rintro ⟨k, c⟩
    cases c <;> rfl
  rw [MemTx.ordered_run, roundTrips_iff]
  simp only [ValidKeys, List.mem_map, exists_exists_and_eq_and, forall_exists_index, and_imp,
    forall_apply_eq_imp_iff₂, hkey]
  exact forall₂_congr fun w hw => w.1.valid_key (h w hw)

theorem record_round_trips_of_first_object :
    RoundTrips (MemTx.run ∅ [.put (ascii "object/bkt/a") [49]]).ordered := by
  refine (record_round_trips_iff ∅ [(.ofObject .object (ascii "bkt") (ascii "a"), .put [49])] ?_).mpr ?_
  · simp only [List.mem_singleton, forall_eq, Named.Admitted]
    decide +kernel
  · simp only [List.mem_singleton, forall_eq, Named.ValidName]
    decide

theorem record_of_invalid_name_refused : (Named.ofObject .object (ascii "bkt") [0xFF]).Admitted ∧
      checked (line (MemTx.run ∅ [.put (Named.ofObject .object (ascii "bkt") [0xFF]).key [49]]).ordered) = none := by
  refine ⟨?_, ?_⟩
  · simp only [Named.Admitted]
    decide +kernel
  · rw [MemTx.ordered_run, checked, decodeRecord_line]
    decide +kernel

end CloudBurrow.LogRecord
