import CloudBurrow.Codec.ByteOrder
import CloudBurrow.Storage.Buckets
import CloudBurrow.Storage.Lifecycle

namespace CloudBurrow.Storage

open Utf8 Transaction

structure ListToken where
  after : Bytes := []
  folded : Bool := false
  gen : Int := 0
deriving DecidableEq

def ListToken.recode (t : ListToken) : ListToken := { t with after := toValid t.after }

structure ListCall where
  bucket : Bytes
  mode : ListMode := .live
  select : NameSelector := {}
  maxResults : Option Nat := none
  token : ListToken := {}
  filter : Option (ObjectRecord → Bool) := none

structure ListState where
  items : List ObjectRecord := []
  prefixes : List Bytes := []
  last : ListToken := {}
deriving DecidableEq

def ListState.size (st : ListState) : Nat := st.items.length + st.prefixes.length

structure ListPage where
  items : List ObjectRecord
  prefixes : List Bytes
  next : Option ListToken
deriving DecidableEq

def ListState.page (st : ListState) : ListPage :=
  { items := st.items, prefixes := st.prefixes, next := none }

def ListState.cut (st : ListState) : ListPage :=
  { items := st.items, prefixes := st.prefixes, next := some st.last.recode }

namespace ListCall

def limit (r : ListCall) : Nat :=
  match r.maxResults with
  | none => 1000
  | some n => if 0 < n ∧ n < 1000 then n else 1000

def resumes (r : ListCall) (name : Bytes) : Bool :=
  decide (r.token.after ≠ []) && decide (name = r.token.after) && decide (0 < r.token.gen)

def skips (r : ListCall) (name : Bytes) : Bool :=
  decide (r.token.after ≠ []) && !r.resumes name &&
    (decide (¬ r.token.after < name) || (r.token.folded && r.token.after.isPrefixOf name))

def shows (r : ListCall) (name : Bytes) (vs : List ObjectRecord) : List ObjectRecord :=
  let vs := if r.resumes name then vs.dropWhile fun v => decide (v.generation ≤ r.token.gen) else vs
  match r.filter with
  | none => vs
  | some keep => vs.filter keep

def addVersions (r : ListCall) (name : Bytes) (marked : Bool) :
    Bool → List ObjectRecord → ListState → ListState × Bool
  | _, [], st => (st, false)
  | first, v :: vs, st =>
    if !first && decide (r.limit ≤ st.size) then (st, true)
    else addVersions r name marked false vs
      { st with
        items := st.items ++ [v]
        last :=
          if marked then st.last
          else { after := name, gen := if r.mode = .live then 0 else v.generation } }

def visit (r : ListCall) (versions : Bytes → List ObjectRecord) : List Bytes → ListState → ListPage
  | [], st => st.page
  | name :: names, st =>
    if r.skips name || !r.select.inRange name then visit r versions names st
    else
      let p := r.select.fold name
      let marks := decide (p ≠ []) && decide (p ∉ st.prefixes)
      let vs := if r.select.itemOf name p then r.shows name (versions name) else []
      if !marks && vs.isEmpty then visit r versions names st
      else if r.limit < st.size + (if marks then 1 else 0) + (if vs.isEmpty then 0 else 1) then st.cut
      else
        let st := if marks then
          { st with prefixes := st.prefixes ++ [p], last := { after := p, folded := true } } else st
        match r.addVersions name marks true vs st with
        | (st, true) => st.cut
        | (st, false) => visit r versions names st

end ListCall

def versionsIn (s : Store) (b : BucketRecord) (mode : ListMode) (now : Time) (name : Bytes) :
    List ObjectRecord :=
  let key := objectKey b.name name
  match mode with
  | .softDeleted =>
    (byGeneration (Shelf.softdeleted.read s key)).filter (restorable b now)
  | .live => (s.get .object key).toList
  | .allVersions =>
    byGeneration (Shelf.noncurrent.read s key) ++ (s.get .object key).toList

section Folding

theorem indexOf_add_length_le {sub s : Bytes} {i : Nat} (h : indexOf sub s = some i) :
    i + sub.length ≤ s.length := by
  induction s generalizing i with
  | nil =>
    rw [indexOf] at h
    split_ifs at h with hsub
    cases h
    simp [hsub]
  | cons b s ih =>
    rw [indexOf] at h
    split_ifs at h with hhead
    · cases h
      simpa using (List.isPrefixOf_iff_prefix.mp hhead).length_le
    · obtain ⟨j, hj, rfl⟩ := Option.map_eq_some_iff.mp h
      have hle := ih hj
      simp only [List.length_cons]
      omega

theorem indexOf_of_isPrefix {sub s s' : Bytes} {i : Nat} (hsub : sub ≠ []) (h : indexOf sub s = some i)
    (hs' : s.take (i + sub.length) <+: s') : indexOf sub s' = some i := by
  induction s generalizing s' i with
  | nil => simp [indexOf, hsub] at h
  | cons b s ih =>
    rw [indexOf] at h
    split_ifs at h with hhead
    · cases h
      have hstart : sub <+: s' := by
        rw [List.isPrefixOf_iff_prefix] at hhead
        rw [Nat.zero_add, ← List.prefix_iff_eq_take.mp hhead] at hs'
        exact hs'
      cases s' with
      | nil => exact absurd (List.prefix_nil.mp hstart) hsub
      | cons c s' => rw [indexOf, if_pos (List.isPrefixOf_iff_prefix.mpr hstart)]
    · obtain ⟨j, hj, rfl⟩ := Option.map_eq_some_iff.mp h
      rw [Nat.add_right_comm, List.take_succ_cons] at hs'
      obtain ⟨rest, rfl⟩ := hs'
      have hrest := ih hj (List.prefix_append _ rest)
      have hnot : ¬ sub.isPrefixOf (b :: (s.take (j + sub.length) ++ rest)) = true := by
        rw [List.isPrefixOf_iff_prefix] at hhead ⊢
        intro hsubs
        have hle := indexOf_add_length_le hj
        have hshort : sub <+: b :: s.take (j + sub.length) := by
          refine List.prefix_of_prefix_length_le hsubs (List.prefix_append _ rest) ?_
          simp only [List.length_cons, List.length_take]
          omega
        exact hhead (hshort.trans ((List.prefix_cons_inj b).mpr (List.take_prefix _ _)))
      rw [List.cons_append, indexOf, hrest, if_neg hnot]
      rfl

variable {sel : NameSelector} {name other : Bytes}

theorem fold_isPrefix : sel.fold name <+: name := by
  unfold NameSelector.fold
  split_ifs
  · exact List.nil_prefix
  · split
    · exact List.take_prefix _ _
    · exact List.nil_prefix

theorem fold_of_isPrefix (hname : sel.namePrefix <+: name) (hother : sel.namePrefix <+: other)
    (hne : sel.fold name ≠ []) (h : sel.fold name <+: other) : sel.fold other = sel.fold name := by
  unfold NameSelector.fold at hne h ⊢
  split_ifs at hne h ⊢ with hdelim
  · rfl
  · obtain ⟨rest, rfl⟩ := hname
    obtain ⟨rest', rfl⟩ := hother
    simp only [List.drop_left] at hne h ⊢
    cases hindex : indexOf sel.delimiter rest with
    | none => simp [hindex] at hne
    | some i =>
      simp only [hindex] at h ⊢
      rw [Nat.add_assoc, List.take_length_add_append, List.prefix_append_right_inj] at h
      have hindex' := indexOf_of_isPrefix hdelim hindex h
      have hlen : (rest.take (i + sel.delimiter.length)).length = i + sel.delimiter.length :=
        List.length_take_of_le (indexOf_add_length_le hindex)
      simp only [hindex']
      rw [Nat.add_assoc, List.take_length_add_append, List.take_length_add_append,
        ← hlen, ← List.prefix_iff_eq_take.mp h, hlen]

end Folding

section Names

theorem ascending_list (s : Store) (k : Kind) (start : Bytes) : (s.list k start).Pairwise (· < ·) := by
  refine List.Pairwise.filter _ ?_
  exact Std.ExtTreeMap.ordered_keys.imp fun h => (compare_lt_iff _ _).mp h

def namesOf (s : Store) (k : Kind) (bucket start : Bytes) : List Bytes :=
  (s.list k (objectKey bucket start)).map fun key => key.drop (objectKey bucket []).length

theorem namesIn_run (k : Kind) (bucket start : Bytes) (tx : Tx) :
    namesIn k bucket start tx = (.ok (namesOf tx.store k bucket start), tx) := rfl

theorem drop_objectKey (bucket name : Bytes) :
    (objectKey bucket name).drop (objectKey bucket []).length = name := by
  simp [objectKey, ← List.drop_drop]

theorem objectKey_lt {bucket name name' : Bytes} :
    objectKey bucket name < objectKey bucket name' ↔ name < name' := by
  have happend : ∀ n, objectKey bucket n = objectKey bucket [] ++ n := by simp [objectKey]
  rw [happend name, happend name', lt_append_left]

theorem objectKey_isPrefix {bucket start name : Bytes} :
    objectKey bucket start <+: objectKey bucket name ↔ start <+: name := by
  have happend : ∀ n, objectKey bucket n = objectKey bucket [] ++ n := by simp [objectKey]
  rw [happend start, happend name, List.prefix_append_right_inj]

theorem key_of_listed {bucket start key : Bytes} (h : objectKey bucket start <+: key) :
    ∃ name, key = objectKey bucket name := by
  obtain ⟨rest, rfl⟩ := h
  exact ⟨start ++ rest, by simp [objectKey]⟩

variable {s : Store} {k : Kind} {bucket start name : Bytes}

theorem mem_namesOf : name ∈ namesOf s k bucket start ↔
      start <+: name ∧ ∃ v, s.get k (objectKey bucket name) = some v := by
  rw [namesOf, List.mem_map]
  constructor
  · rintro ⟨key, hkey, rfl⟩
    obtain ⟨hstart, hv⟩ := s.mem_list.mp hkey
    obtain ⟨name, rfl⟩ := key_of_listed hstart
    rw [drop_objectKey]
    exact ⟨objectKey_isPrefix.mp hstart, hv⟩
  · rintro ⟨hstart, hv⟩
    exact ⟨objectKey bucket name, s.mem_list.mpr ⟨objectKey_isPrefix.mpr hstart, hv⟩,
      drop_objectKey bucket name⟩

theorem ascending_namesOf (s : Store) (k : Kind) (bucket start : Bytes) :
    (namesOf s k bucket start).Pairwise (· < ·) := by
  rw [namesOf, List.pairwise_map]
  refine (ascending_list s k _).imp_of_mem fun hkey hkey' hlt => ?_
  obtain ⟨name, rfl⟩ := key_of_listed (s.mem_list.mp hkey).1
  obtain ⟨name', rfl⟩ := key_of_listed (s.mem_list.mp hkey').1
  rw [drop_objectKey, drop_objectKey]
  exact objectKey_lt.mp hlt

end Names

def objectsList (r : ListCall) (now : Time) : Action ListPage := do
  let b ← existingBucket r.bucket
  let names ← listNames r.bucket r.select.namePrefix r.mode
  .read fun tx => r.visit (versionsIn tx.store b r.mode now) names {}

structure SoftGetCall where
  bucket : Bytes
  name : Bytes
  generation : GenParam
  media : Bool := false

def needsGeneration (generation : GenParam) : Option HttpError :=
  if generation = .live then some (required "generation") else none

def getSoftDeletedObject (r : SoftGetCall) (now : Time) : Action ObjectRecord := do
  Txn.check (needsGeneration r.generation)
  Txn.check (if r.media then
    some (badRequest (ascii "A soft-deleted object cannot be read; restore it first")) else none)
  let b ← existingBucket r.bucket
  match ← findSoftDeleted b r.name r.generation now with
  | none => .refuse (noObject r.bucket r.name)
  | some o => pure o

def restoreObject (r : RestoreCall) (now : Time) : Action ObjectRecord := do
  Txn.check (needsGeneration r.generation)
  objectsRestore r now

def getSoftBucket (name : Bytes) (generation : GenParam) (now : Time) : Action (Option BucketRecord) :=
  match generation with
  | .exactly g => do
    let b : Option BucketRecord ← Tx.get .softbucket (softBucketKey name g)
    pure (b.filter fun b => before now b.hardDelete)
  | _ => pure none

def bucketsGetSoftDeleted (name : Bytes) (generation : GenParam) (now : Time) : Action BucketRecord := do
  Txn.check (needsGeneration generation)
  match ← getSoftBucket name generation now with
  | none => .refuse noBucket
  | some b => pure b

def restoreBucket (name : Bytes) (generation : GenParam) (now : Time) : Action BucketRecord := do
  Txn.check (needsGeneration generation)
  match generation with
  | .exactly g => bucketsRestore name g now
  | _ => .refuse noBucket

def softBuckets (project start : Bytes) (now : Time) : Action (List BucketRecord) := do
  let bs : List BucketRecord ← Tx.values .softbucket start
  pure ((bs.filter fun b => decide (b.project = project) && before now b.hardDelete).insertionSort
    fun a b => a.name < b.name ∨ a.name = b.name ∧ a.generation ≤ b.generation)

structure BucketPage where
  items : List BucketRecord := []
  next : Option Bytes := none

def bucketPage (limit : Nat) (after : Bytes) : List BucketRecord → List BucketRecord → Bytes → BucketPage
  | [], items, _ => { items }
  | b :: bs, items, lastID =>
    let id := softBucketKey b.name b.generation
    if after ≠ [] ∧ ¬ after < id then bucketPage limit after bs items lastID
    else if items.length = limit then { items, next := some lastID }
    else bucketPage limit after bs (items ++ [b]) id

structure SoftBucketsCall where
  project : Bytes
  start : Bytes := []
  maxResults : Option Nat := none
  after : Bytes := []

def listSoftBuckets (r : SoftBucketsCall) (now : Time) : Action BucketPage := do
  Txn.check (if r.project = [] then some (required "project") else none)
  let bs ← softBuckets r.project r.start now
  pure (bucketPage (ListCall.limit { bucket := [], maxResults := r.maxResults }) r.after bs [] [])

end CloudBurrow.Storage
