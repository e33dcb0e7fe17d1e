import CloudBurrow.Storage.Records

namespace CloudBurrow.Storage

open Utf8

inductive Kind where
  | bucket | object | noncurrent | softdeleted | softbucket | session | rewrite | notification
  | outbox | mpu | hmac | managedfolder | folder | operation | anywherecache | rapidcache
  | channel | chanout | intelligence | projectnumbers
deriving DecidableEq

def Kind.text : Kind → Bytes
  | .bucket => ascii "bucket/"
  | .object => ascii "object/"
  | .noncurrent => ascii "noncurrent/"
  | .softdeleted => ascii "softdeleted/"
  | .softbucket => ascii "softbucket/"
  | .session => ascii "session/"
  | .rewrite => ascii "rewrite/"
  | .notification => ascii "notification/"
  | .outbox => ascii "outbox/"
  | .mpu => ascii "mpu/"
  | .hmac => ascii "hmac/"
  | .managedfolder => ascii "managedfolder/"
  | .folder => ascii "folder/"
  | .operation => ascii "operation/"
  | .anywherecache => ascii "anywherecache/"
  | .rapidcache => ascii "rapidcache/"
  | .channel => ascii "channel/"
  | .chanout => ascii "chanout/"
  | .intelligence => ascii "intelligence/"
  | .projectnumbers => ascii "projectnumbers"

abbrev Val : Kind → Type
  | .bucket => BucketRecord
  | .object => ObjectRecord
  | .noncurrent => List ObjectRecord
  | .softdeleted => List ObjectRecord
  | .softbucket => BucketRecord
  | .session => Encoded UploadSession.recode
  | .rewrite => Encoded RewriteState.recode
  | .notification => NotificationEntry
  | .outbox => OutboxEntry
  | .mpu => Encoded MultipartUpload.recode
  | .hmac => HmacKey
  | .managedfolder => ManagedFolderRecord
  | .folder => Encoded FolderRecord.recode
  | .operation => OperationRecord
  | .anywherecache => CacheRecord
  | .rapidcache => CacheRecord
  | .channel => ChannelRecord
  | .chanout => ChannelMessage
  | .intelligence => Bytes
  | .projectnumbers => Bytes

def Store : Type := (k : Kind) → Std.ExtTreeMap Bytes (Val k)

namespace Store

def empty : Store := fun _ => ∅

def get (s : Store) (k : Kind) (key : Bytes) : Option (Val k) := (s k)[key]?

def put (s : Store) (k : Kind) (key : Bytes) (v : Val k) : Store :=
  Function.update s k ((s k).insert key v)

def delete (s : Store) (k : Kind) (key : Bytes) : Store :=
  Function.update s k ((s k).erase key)

def list (s : Store) (k : Kind) (start : Bytes) : List Bytes :=
  (s k).keys.filter fun key => start.isPrefixOf key

def values (s : Store) (k : Kind) (start : Bytes) : List (Val k) :=
  (s.list k start).filterMap fun key => s.get k key

variable (s t : Store) {k k' : Kind} {key key' : Bytes}

@[simp] theorem get_empty (k : Kind) (key : Bytes) : empty.get k key = none := by
  simp [empty, get]

theorem put_self (key : Bytes) (v : Val k) : s.put k key v k = (s k).insert key v :=
  Function.update_self _ _ _

theorem delete_self (key : Bytes) : s.delete k key k = (s k).erase key :=
  Function.update_self _ _ _

@[simp] theorem put_other (h : k' ≠ k) (key : Bytes) (v : Val k) : s.put k key v k' = s k' :=
  Function.update_of_ne h _ _

@[simp] theorem delete_other (h : k' ≠ k) (key : Bytes) : s.delete k key k' = s k' :=
  Function.update_of_ne h _ _

@[simp] theorem get_put_self (v : Val k) : (s.put k key v).get k key = some v := by
  rw [get, put_self, Std.ExtTreeMap.getElem?_insert_self]

theorem get_put_key (h : key ≠ key') (v : Val k) : (s.put k key v).get k key' = s.get k key' := by
  rw [get, get, put_self, Std.ExtTreeMap.getElem?_insert]
  simp [h]

@[simp] theorem get_delete_self : (s.delete k key).get k key = none := by
  rw [get, delete_self, Std.ExtTreeMap.getElem?_erase_self]

theorem get_delete_key (h : key ≠ key') : (s.delete k key).get k key' = s.get k key' := by
  rw [get, get, delete_self, Std.ExtTreeMap.getElem?_erase]
  simp [h]

@[simp] theorem get_delete_kind (h : k' ≠ k) : (s.delete k key).get k' key' = s.get k' key' := by
  simp [get, delete_other s h]

theorem get_delete : (s.delete k key).get k key' = if key = key' then none else s.get k key' := by
  split_ifs with h
  · rw [h, get_delete_self]
  · exact get_delete_key s h

theorem mem_list {start : Bytes} : key ∈ s.list k start ↔ start <+: key ∧ ∃ v, s.get k key = some v := by
  simp only [list, List.mem_filter, Std.ExtTreeMap.mem_keys, List.isPrefixOf_iff_prefix, get]
  rw [and_comm, Std.ExtTreeMap.mem_iff_isSome_getElem?, Option.isSome_iff_exists]

theorem nodup_list (start : Bytes) : (s.list k start).Nodup := by
  refine List.Nodup.filter _ ?_
  exact (Std.ExtTreeMap.distinct_keys (t := s k)).imp fun h heq => h (by simp [heq])

end Store

def objectKey (bucket name : Bytes) : Bytes := bucket ++ slash :: name

theorem objectKey_inj {b b' n n' : Bytes} (hb : slash ∉ b) (hb' : slash ∉ b')
    (h : objectKey b n = objectKey b' n') : b = b' ∧ n = n' := by
  induction b generalizing b' with
  | nil =>
    cases b' with
    | nil => simpa [objectKey] using h
    | cons c b' =>
      simp only [objectKey, List.nil_append, List.cons_append, List.cons.injEq] at h
      exact absurd (h.1 ▸ List.mem_cons_self) hb'
  | cons c b ih =>
    cases b' with
    | nil =>
      simp only [objectKey, List.nil_append, List.cons_append, List.cons.injEq] at h
      exact absurd (h.1 ▸ List.mem_cons_self) hb
    | cons d b' =>
      simp only [objectKey, List.cons_append, List.cons.injEq] at h
      obtain ⟨rfl, h⟩ := h
      obtain ⟨rfl, rfl⟩ := ih (fun hm => hb (List.mem_cons_of_mem _ hm))
        (fun hm => hb' (List.mem_cons_of_mem _ hm)) h
      exact ⟨rfl, rfl⟩

theorem objectKey_name_inj {b n n' : Bytes} (h : objectKey b n = objectKey b n') : n = n' := by
  simpa [objectKey] using h

end CloudBurrow.Storage
