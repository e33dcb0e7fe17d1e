import CloudBurrow.Storage.UploadPaths

namespace CloudBurrow.Storage

open Utf8 JsonText LogRecord ParseInt Transaction

theorem member_nil (k : String) : member k [] = none := rfl

theorem member_append (k : String) (xs ys : List (Bytes × Json)) :
    member k (xs ++ ys) = (member k ys).or (member k xs) := by
  unfold member
  rw [List.filter_append, List.getLast?_append]
  cases (ys.filter fun m => m.1 = ascii k).getLast? <;> rfl

theorem member_cons (k : String) (m : Bytes × Json) (ms : List (Bytes × Json)) :
    member k (m :: ms) = (member k ms).or (if m.1 = ascii k then some m.2 else none) := by
  rw [← List.singleton_append, member_append]
  congr 1
  unfold member
  by_cases h : m.1 = ascii k <;> simp [h]

variable {ms : List (Bytes × Json)}

theorem mem_of_member {k : String} {v : Json} (h : member k ms = some v) : (ascii k, v) ∈ ms := by
  obtain ⟨m, hm, rfl⟩ := Option.map_eq_some_iff.mp h
  have hmem := List.mem_filter.mp (List.mem_of_getLast? hm)
  have hk : m.1 = ascii k := by simpa using hmem.2
  rw [← hk]
  exact hmem.1

structure FullMeta.Reads (ms : List (Bytes × Json)) (m : FullMeta) : Prop where
  name : stringField "name" ms = .ok m.name
  contentType : stringField "contentType" ms = .ok m.contentType
  contentEncoding : stringField "contentEncoding" ms = .ok m.contentEncoding
  contentDisposition : stringField "contentDisposition" ms = .ok m.contentDisposition
  contentLanguage : stringField "contentLanguage" ms = .ok m.contentLanguage
  cacheControl : stringField "cacheControl" ms = .ok m.cacheControl
  metadata : labelsField "metadata" ms = .ok m.metadata
  md5Hash : stringField "md5Hash" ms = .ok m.md5Hash
  crc32c : stringField "crc32c" ms = .ok m.crc32c
  storageClass : stringField "storageClass" ms = .ok m.storageClass
  customTime : stringField "customTime" ms = .ok m.customTime
  acl : member "acl" ms = m.acl
  predefinedAcl : stringField "predefinedAcl" ms = .ok m.predefinedAcl
  keySHA256 : bytesField "keySha256" ms = .ok m.keySHA256
  contexts : member "contexts" ms = m.contexts

theorem FullMeta.reads_of_ofMembers {m : FullMeta} (h : FullMeta.ofMembers ms = .ok m) : m.Reads ms := by
  obtain ⟨_, h₁, h⟩ := Txn.except_bind_ok h
  obtain ⟨_, h₂, h⟩ := Txn.except_bind_ok h
  obtain ⟨_, h₃, h⟩ := Txn.except_bind_ok h
  obtain ⟨_, h₄, h⟩ := Txn.except_bind_ok h
  obtain ⟨_, h₅, h⟩ := Txn.except_bind_ok h
  obtain ⟨_, h₆, h⟩ := Txn.except_bind_ok h
  obtain ⟨_, h₇, h⟩ := Txn.except_bind_ok h
  obtain ⟨_, h₈, h⟩ := Txn.except_bind_ok h
  obtain ⟨_, h₉, h⟩ := Txn.except_bind_ok h
  obtain ⟨_, h₁₀, h⟩ := Txn.except_bind_ok h
  obtain ⟨_, h₁₁, h⟩ := Txn.except_bind_ok h
  obtain ⟨_, h₁₂, h⟩ := Txn.except_bind_ok h
  obtain ⟨_, h₁₃, h⟩ := Txn.except_bind_ok h
  cases h
  exact ⟨h₁, h₂, h₃, h₄, h₅, h₆, h₇, h₈, h₉, h₁₀, h₁₁, rfl, h₁₂, h₁₃, rfl⟩

theorem FullMeta.ofMembers_of_reads {m : FullMeta} (h : m.Reads ms) :
    FullMeta.ofMembers ms = .ok { m with protection := {} } := by
  unfold FullMeta.ofMembers
  rw [h.name, h.contentType, h.contentEncoding, h.contentDisposition, h.contentLanguage,
    h.cacheControl, h.metadata, h.md5Hash, h.crc32c, h.storageClass, h.customTime, h.predefinedAcl,
    h.keySHA256, h.acl, h.contexts]
  rfl

def CleanMembers (ms : List (Bytes × Json)) : Prop := cleanMembers ms = ms

theorem cleanMembers_mem (h : CleanMembers ms) {x : Bytes × Json} (hx : x ∈ ms) : Valid x.1 ∧ clean x.2 = x.2 := by
  unfold CleanMembers at h
  rw [cleanMembers_eq_map] at h
  have hfix := List.map_inj_left.mp (h.trans (List.map_id ms).symm) x hx
  exact ⟨toValid_eq_self.mp (congrArg Prod.fst hfix), congrArg Prod.snd hfix⟩

theorem cleanMembers_of_forall (h : ∀ x ∈ ms, Valid x.1 ∧ clean x.2 = x.2) : CleanMembers ms := by
  unfold CleanMembers
  rw [cleanMembers_eq_map]
  refine (List.map_inj_left.mpr fun x hx => ?_).trans (List.map_id ms)
  rw [toValid_of_valid _ (h x hx).1, (h x hx).2]
  rfl

theorem clean_str {s : Bytes} : clean (.str s) = .str s ↔ Valid s := by
  simp [clean, toValid_eq_self]

structure FullMeta.Clean (m : FullMeta) : Prop where
  texts : ∀ s ∈ [m.name, m.contentType, m.contentEncoding, m.contentDisposition, m.contentLanguage,
    m.cacheControl, m.md5Hash, m.crc32c, m.storageClass, m.customTime, m.predefinedAcl], Valid s
  metadata : ∀ x ∈ m.metadata.toList, Valid x.1 ∧ Valid x.2
  acl : ∀ v ∈ m.acl, clean v = v
  contexts : ∀ v ∈ m.contexts, clean v = v

section Decoding

variable {ms : List (Bytes × Json)}

theorem valid_nil : Valid [] := by decide

variable {k : String}

theorem stringField_valid (hms : CleanMembers ms) {s : Bytes} (h : stringField k ms = .ok s) : Valid s := by
  unfold stringField at h
  split at h
  · cases h
    exact valid_nil
  · cases h
    exact valid_nil
  · next t ht =>
      cases h
      exact clean_str.mp (cleanMembers_mem hms (mem_of_member ht)).2
  · cases h

theorem labelValue_valid {v : Json} {s : Bytes} (hv : clean v = v) (h : labelValue k v = .ok s) : Valid s := by
  cases v with
  | str t =>
    cases h
    exact clean_str.mp hv
  | null =>
    cases h
    exact valid_nil
  | _ => cases h

theorem mapM_labels {pairs : List (Bytes × Json)} {values : List (Bytes × Bytes)} (hpairs : CleanMembers pairs)
    (h : (pairs.mapM fun m => do
      let v ← labelValue k m.2
      pure (m.1, v)) = Except.ok values) : ∀ x ∈ values, Valid x.1 ∧ Valid x.2 := by
  have hmem := fun x hx => cleanMembers_mem (x := x) hpairs hx
  clear hpairs
  induction pairs generalizing values with
  | nil =>
    cases h
    simp
  | cons m pairs ih =>
    rw [List.mapM_cons] at h
    obtain ⟨x, hx, h⟩ := Txn.except_bind_ok h
    obtain ⟨v, hv, hx⟩ := Txn.except_bind_ok hx
    obtain ⟨rest, hrest, h⟩ := Txn.except_bind_ok h
    cases hx
    cases h
    intro y hy
    rcases List.mem_cons.mp hy with rfl | hy
    · obtain ⟨hk, hclean⟩ := hmem m List.mem_cons_self
      exact ⟨hk, labelValue_valid hclean hv⟩
    · exact ih hrest (fun x hx => hmem x (List.mem_cons_of_mem _ hx)) y hy

theorem labels_ofList {values : List (Bytes × Bytes)} {P : Bytes × Bytes → Prop}
    (h : ∀ x ∈ values, P x) : ∀ x ∈ (Std.ExtTreeMap.ofList values : Labels).toList, P x := by
  intro x hx
  have hget := Std.ExtTreeMap.mem_toList_iff_getElem?_eq_some.mp hx
  rw [Std.ExtTreeMap.ofList_eq_insertMany_empty, Std.ExtTreeMap.getElem?_insertMany_list,
    Std.ExtTreeMap.getElem?_empty, Option.or_none, List.findSomeRev?_eq_findSome?_reverse] at hget
  obtain ⟨⟨k, v⟩, hy, hsome⟩ := List.exists_of_findSome?_eq_some hget
  dsimp only at hsome
  split_ifs at hsome with hk
  obtain rfl : v = x.2 := Option.some.inj hsome
  obtain rfl : k = x.1 := Std.LawfulEqCmp.eq_of_compare hk
  exact h x (List.mem_reverse.mp hy)

theorem labels_roundtrip (l : Labels) : Std.ExtTreeMap.ofList l.toList = l := by
  refine Std.ExtTreeMap.ext_getElem? fun k => ?_
  cases hk : l[k]? with
  | some v =>
    exact Std.ExtTreeMap.getElem?_ofList_of_mem Std.ReflCmp.compare_self
      Std.ExtTreeMap.distinct_keys_toList (Std.ExtTreeMap.mem_toList_iff_getElem?_eq_some.mpr hk)
  | none =>
    refine Std.ExtTreeMap.getElem?_ofList_of_contains_eq_false ?_
    rw [Std.ExtTreeMap.map_fst_toList_eq_keys]
    rw [Std.ExtTreeMap.contains_keys, Std.ExtTreeMap.contains_eq_isSome_getElem?, hk]
    rfl

theorem clean_obj {pairs : List (Bytes × Json)} (h : clean (.obj pairs) = .obj pairs) :
    CleanMembers pairs := by
  simpa [clean, CleanMembers] using h

theorem labelsField_valid (hms : CleanMembers ms) {l : Labels}
    (h : labelsField k ms = .ok l) : ∀ x ∈ l.toList, Valid x.1 ∧ Valid x.2 := by
  have hempty : ∀ x ∈ (∅ : Labels).toList, Valid x.1 ∧ Valid x.2 := by simp
  unfold labelsField at h
  split at h
  · cases h
    exact hempty
  · cases h
    exact hempty
  · next pairs hpairs =>
      obtain ⟨values, hvalues, h⟩ := Txn.except_bind_ok h
      cases h
      have hclean := clean_obj (cleanMembers_mem hms (mem_of_member hpairs)).2
      exact labels_ofList (P := fun x => Valid x.1 ∧ Valid x.2) (mapM_labels hclean hvalues)
  · cases h

theorem FullMeta.Reads.clean {m : FullMeta} (hms : CleanMembers ms) (h : m.Reads ms) : m.Clean where
  texts := by
    simp only [List.forall_mem_cons, List.not_mem_nil, false_imp_iff, implies_true, and_true]
    exact ⟨stringField_valid hms h.name, stringField_valid hms h.contentType,
      stringField_valid hms h.contentEncoding, stringField_valid hms h.contentDisposition,
      stringField_valid hms h.contentLanguage, stringField_valid hms h.cacheControl,
      stringField_valid hms h.md5Hash, stringField_valid hms h.crc32c,
      stringField_valid hms h.storageClass, stringField_valid hms h.customTime,
      stringField_valid hms h.predefinedAcl⟩
  metadata := labelsField_valid hms h.metadata
  acl := fun v hv => (cleanMembers_mem hms (mem_of_member (h.acl.trans hv))).2
  contexts := fun v hv => (cleanMembers_mem hms (mem_of_member (h.contexts.trans hv))).2

end Decoding

section Storing

variable (p : Platform) {m : FullMeta}
variable {k : String} {ms : List (Bytes × Json)}

theorem labelsField_labelsJson (l : Labels) (h : member k ms = some (labelsJson l)) : labelsField k ms = .ok l := by
  have hmap : ((l.toList.map fun x => (x.1, Json.str x.2)).mapM fun m => do
      let v ← labelValue k m.2
      pure (m.1, v)) = (Except.ok l.toList : Except HttpError _) := by
    induction l.toList with
    | nil => rfl
    | cons x xs ih =>
      rw [List.map_cons, List.mapM_cons, ih]
      rfl
  simp only [labelsField, h, labelsJson]
  rw [hmap]
  exact congrArg Except.ok (labels_roundtrip l)

variable {s : Bytes}

theorem stringField_str (h : member k ms = some (.str s)) : stringField k ms = .ok s := by
  simp only [stringField, h]

theorem member_optional {A : Type} (k k' : String) (o : Option A) (f : A → Json) :
    member k (o.toList.map fun v => (ascii k', f v)) =
      if ascii k' = ascii k then o.map f else none := by
  cases o with
  | none => simp [member]
  | some v =>
    rw [Option.toList_some, List.map_singleton, member_cons, member_nil]
    split_ifs <;> rfl

theorem member_unless {k' : String} : member k (if s = [] then [] else [(ascii k', .str s)]) =
      if ascii k' = ascii k ∧ s ≠ [] then some (.str s) else none := by
  by_cases hs : s = []
  · simp [hs, member_nil]
  · rw [if_neg hs, member_cons, member_nil]
    split_ifs <;> simp_all

theorem stringField_unless (h : member k ms = if s ≠ [] then some (.str s) else none) : stringField k ms = .ok s := by
  by_cases hs : s = []
  · rw [if_neg (not_not.mpr hs)] at h
    simp only [stringField, h, hs]
  · rw [if_pos hs] at h
    exact stringField_str h

theorem bytesField_optional {o : Option Bytes}
    (h : member k ms = o.map fun b => .str (Base64.encode b)) : bytesField k ms = .ok o := by
  cases o with
  | none => simp only [bytesField, h, Option.map_none]
  | some b => simp only [bytesField, h, Option.map_some, Base64.decode_encode]

theorem FullMeta.reads_members (m : FullMeta) : m.Reads m.members := by
  refine ⟨stringField_str ?_, stringField_str ?_, stringField_str ?_, stringField_str ?_,
    stringField_str ?_, stringField_str ?_, labelsField_labelsJson _ ?_, stringField_str ?_,
    stringField_str ?_, stringField_str ?_, stringField_str ?_, ?_, stringField_unless ?_,
    bytesField_optional ?_, ?_⟩
  all_goals
    unfold FullMeta.members
    rw [member_append, member_append, member_append, member_append,
      member_optional _ "acl" m.acl (fun v => v), member_optional _ "keySha256",
      member_optional _ "contexts" m.contexts (fun v => v), member_unless]
    simp +decide [member_cons, member_nil]

theorem clean_labelsJson {l : Labels} (h : ∀ x ∈ l.toList, Valid x.1 ∧ Valid x.2) :
    clean (labelsJson l) = labelsJson l := by
  refine congrArg Json.obj (cleanMembers_of_forall fun x hx => ?_)
  obtain ⟨y, hy, rfl⟩ := List.mem_map.mp hx
  exact ⟨(h y hy).1, clean_str.mpr (h y hy).2⟩

theorem clean_member {v : Json} (hk : Valid (ascii k)) (hv : clean v = v) :
    Valid (ascii k, v).1 ∧ clean (ascii k, v).2 = (ascii k, v).2 := ⟨hk, hv⟩

theorem FullMeta.Clean.members (h : m.Clean) : CleanMembers m.members := by
  refine cleanMembers_of_forall fun x hx => ?_
  simp only [FullMeta.members, List.mem_append, List.mem_cons, List.not_mem_nil, or_false,
    List.mem_map, Option.mem_toList] at hx
  rcases hx with (((hx | ⟨v, hv, rfl⟩) | hx) | ⟨b, _, rfl⟩) | ⟨v, hv, rfl⟩
  · rcases hx with rfl | rfl | rfl | rfl | rfl | rfl | rfl | rfl | rfl | rfl | rfl
    case inr.inr.inr.inr.inr.inr.inl => exact clean_member (by decide) (clean_labelsJson h.metadata)
    all_goals exact clean_member (by decide) (clean_str.mpr (h.texts _ (by simp)))
  · exact clean_member (by decide) (h.acl v hv)
  · split_ifs at hx
    · cases hx
    · cases List.mem_singleton.mp hx
      exact clean_member (by decide) (clean_str.mpr (h.texts _ (by simp)))
  · exact clean_member (by decide) (clean_str.mpr (valid_ascii _ (Base64.encode_ascii b)))
  · exact clean_member (by decide) (h.contexts v hv)

theorem FullSession.reread_eq (s : FullSession) (hid : Valid s.id) (hbucket : Valid s.bucket)
    (hupload : s.upload.Clean) (hheaders : ∀ x ∈ s.headers.toList, Valid x.1 ∧ Valid x.2) :
    s.reread = .ok { s with upload := { s.upload with protection := {} } } := by
  have hclean : clean s.json = s.json := by
    refine congrArg Json.obj (cleanMembers_of_forall ?_)
    simp only [List.forall_mem_cons, List.not_mem_nil, false_imp_iff, implies_true, and_true]
    have hmeta : clean (.obj s.upload.members) = .obj s.upload.members :=
      congrArg Json.obj hupload.members
    exact ⟨clean_member (k := "id") (by decide) (clean_str.mpr hid),
      clean_member (k := "bucket") (by decide) (clean_str.mpr hbucket),
      clean_member (k := "meta") (by decide) hmeta,
      clean_member (k := "headers") (by decide) (clean_labelsJson hheaders)⟩
  have hparse : parse (encode s.json) = some s.json := by
    have h := parse_encode s.json (t := []) (by simp)
    rwa [List.append_nil, hclean] at h
  let fields : List (Bytes × Json) := [(ascii "id", .str s.id), (ascii "bucket", .str s.bucket),
    (ascii "meta", .obj s.upload.members), (ascii "headers", labelsJson s.headers)]
  have hid' : member "id" fields = some (.str s.id) := by simp +decide [fields, member_cons, member_nil]
  have hbucket' : member "bucket" fields = some (.str s.bucket) := by
    simp +decide [fields, member_cons, member_nil]
  have hmeta : member "meta" fields = some (.obj s.upload.members) := by
    simp +decide [fields, member_cons, member_nil]
  have hheaders' : labelsField "headers" fields = .ok s.headers := by
    refine labelsField_labelsJson _ ?_
    simp +decide [fields, member_cons, member_nil]
  unfold FullSession.reread
  rw [hparse]
  change (do
    let upload ← storedMeta (member "meta" fields)
    let headers ← labelsField "headers" fields
    .ok { s with id := text (member "id" fields), bucket := text (member "bucket" fields),
                 upload, headers }) = _
  rw [hmeta, hid', hbucket', hheaders', storedMeta, FullMeta.ofMembers_of_reads s.upload.reads_members]
  rfl

variable {p}

theorem parseUploadMeta_clean {raw : Bytes} (h : parseUploadMeta p raw = .ok m) : m.Clean := by
  unfold parseUploadMeta at h
  split_ifs at h with hblank
  · cases h
    exact ⟨by simp [valid_nil], by simp, by simp, by simp⟩
  · split at h
    · next ms hms =>
        obtain ⟨j, _, hj⟩ := Option.map_eq_some_iff.mp hms
        have hclean : CleanMembers ms := by
          refine clean_obj ?_
          rw [← hj, clean_clean]
        split at h
        · cases h
        · obtain ⟨m', hm', h⟩ := Txn.except_bind_ok h
          have hm := (FullMeta.reads_of_ofMembers hm').clean hclean
          split at h
          · cases h
          · cases h
            exact ⟨hm.texts, hm.metadata, hm.acl, hm.contexts⟩
    · cases h

theorem UploadCall.metadata_clean {c : UploadCall} (h : c.metadata p = .ok m) : m.Clean := by
  obtain ⟨m', hm', h⟩ := Txn.except_bind_ok h
  have hclean := parseUploadMeta_clean hm'
  obtain ⟨_, hname, htype, hacl⟩ := c.text
  have htexts := hclean.texts
  simp only [List.forall_mem_cons, List.not_mem_nil, false_imp_iff, implies_true, and_true] at htexts
  obtain ⟨h₁, h₂, h₃, h₄, h₅, h₆, h₇, h₈, h₉, h₁₀, _⟩ := htexts
  have hname' : Valid (if m'.name = [] then c.name else m'.name) := by
    split_ifs
    · exact hname
    · exact h₁
  have htype' : Valid (if m'.contentType = [] then c.mediaType else m'.contentType) := by
    split_ifs
    · exact htype
    · exact h₂
  dsimp only at h
  generalize (if m'.name = [] then c.name else m'.name) = name at h hname'
  generalize (if m'.contentType = [] then c.mediaType else m'.contentType) = type at h htype'
  split_ifs at h
  split at h
  · cases h
  · obtain ⟨key, _, h⟩ := Txn.except_bind_ok h
    cases h
    refine ⟨?_, hclean.metadata, hclean.acl, hclean.contexts⟩
    simp only [List.forall_mem_cons, List.not_mem_nil, false_imp_iff, implies_true, and_true]
    exact ⟨hname', htype', h₃, h₄, h₅, h₆, h₇, h₈, h₉, h₁₀, hacl⟩

end Storing

structure SameUpload (o o' : FullObject) : Prop where
  record : { o'.record with generation := 0, created := 0, updated := 0 } =
    { o.record with generation := 0, created := 0, updated := 0 }
  md5 : o'.md5 = o.md5
  contentType : o'.contentType = o.contentType
  contentEncoding : o'.contentEncoding = o.contentEncoding
  contentDisposition : o'.contentDisposition = o.contentDisposition
  contentLanguage : o'.contentLanguage = o.contentLanguage
  cacheControl : o'.cacheControl = o.cacheControl
  metadata : o'.metadata = o.metadata
  acl : o'.acl = o.acl
  keySHA256 : o'.keySHA256 = o.keySHA256
  contexts : ∀ k : Bytes,
    (o'.contexts[k]?).map ObjectContext.value = (o.contexts[k]?).map ObjectContext.value

section Contexts

theorem applyContext_values {now now' : Time} {next next' : Contexts} (e : Bytes × Json)
    (h : ∀ k : Bytes, (next'[k]?).map ObjectContext.value = (next[k]?).map ObjectContext.value) (k : Bytes) :
    ((applyContext ∅ now' next' e)[k]?).map ObjectContext.value =
      ((applyContext ∅ now next e)[k]?).map ObjectContext.value := by
  unfold applyContext
  cases payloadValue e.2 with
  | none =>
    simp only [Std.ExtTreeMap.getElem?_erase]
    split_ifs
    · rfl
    · exact h k
  | some value =>
    simp only [Std.ExtTreeMap.getElem?_insert, Std.ExtTreeMap.getElem?_empty]
    split_ifs
    · rfl
    · exact h k

theorem applyContexts_values (v : Json) (now now' : Time) (k : Bytes) :
    ((applyContexts ∅ v true now')[k]?).map ObjectContext.value =
      ((applyContexts ∅ v true now)[k]?).map ObjectContext.value := by
  unfold applyContexts
  simp only [if_true]
  split_ifs
  · rfl
  · have hfold (es : List (Bytes × Json)) (next next' : Contexts)
        (h : ∀ k : Bytes, (next'[k]?).map ObjectContext.value = (next[k]?).map ObjectContext.value) :
        ∀ k : Bytes, ((es.foldl (applyContext ∅ now') next')[k]?).map ObjectContext.value =
          ((es.foldl (applyContext ∅ now) next)[k]?).map ObjectContext.value := by
      induction es generalizing next next' with
      | nil => exact h
      | cons e es ih => exact ih _ _ (applyContext_values e h)
    exact hfold _ ∅ ∅ (fun _ => rfl) k

end Contexts

section Protection

structure ProtectionBody.Plain (b : BucketRecord) (body : ProtectionBody) : Prop where
  temporaryHold : body.temporaryHold ≠ .value (some true)
  eventBasedHold : body.eventBasedHold = .value (some true) → b.defaultEventBasedHold = true
  retention : body.retention = .absent ∨ body.retention = .null ∨
    body.retention = .value .emptyObject

theorem flag_ok {k : String} {value : Field (Option Bool)} {x : Bool}
    (h : flag k value false false = .ok x) : x = decide (value = .value (some true)) := by
  unfold flag at h
  split at h
  · cases h
    rfl
  · cases h
    rfl
  · cases h
  · next v =>
      cases h
      cases x <;> rfl

theorem nextRetention_none {value : Field RetentionValue} {now : Time}
    {r : Option ObjectRetention} (h : nextRetention value now = .ok r) :
    r = none ↔ value = .absent ∨ value = .null ∨ value = .value .emptyObject := by
  unfold nextRetention at h
  split at h
  · cases h
    simp
  · cases h
    simp
  · cases h
    simp
  · split_ifs at h
    cases h
    simp
  · cases h
  · cases h

theorem applyProtection_new {o r : ObjectRecord} {body : ProtectionBody} {now : Time}
    (ht : o.temporaryHold = false) (he : o.eventBasedHold = false) (hr : o.retention = none)
    (h : applyProtection o {} body false false now = .ok r) :
    r = { o with
      temporaryHold := decide (body.temporaryHold = .value (some true))
      eventBasedHold := decide (body.eventBasedHold = .value (some true))
      retention := r.retention } ∧
    (r.retention = none ↔
      body.retention = .absent ∨ body.retention = .null ∨ body.retention = .value .emptyObject) := by
  obtain ⟨t, hflag, h⟩ := Txn.except_bind_ok h
  obtain ⟨e, hflag', h⟩ := Txn.except_bind_ok h
  obtain ⟨next, hnext, h⟩ := Txn.except_bind_ok h
  rw [ht] at hflag
  rw [he] at hflag'
  obtain rfl := flag_ok hflag
  obtain rfl := flag_ok hflag'
  split at h
  · cases h
  · cases h
    refine ⟨by simp, ?_⟩
    dsimp only
    unfold changedRetention at hnext
    split_ifs at hnext with habsent
    · cases hnext
      simp [hr, habsent.1]
    · split at hnext
      · cases hnext
      · next r hr' =>
          simp only [retentionChange] at hnext
          cases hnext
          exact nextRetention_none hr'

end Protection

section Finalizing

variable {p : Platform} {b : BucketRecord} {access : BucketAccess} {bucket : Bytes} {m : FullMeta}
  {content : Bytes} {want : Expected}
variable {o r : ObjectRecord}

theorem checkNewObject_ok (h : checkNewObject b o = .ok r) :
    r = { o with eventBasedHold := o.eventBasedHold || b.defaultEventBasedHold } := by
  unfold checkNewObject at h
  cases hd : b.defaultEventBasedHold with
  | true =>
    simp only [hd, if_true] at h
    split_ifs at h
    cases h
    simp
  | false =>
    simp only [hd, Bool.false_eq_true, if_false] at h
    split_ifs at h
    cases h
    simp

theorem checkNewObject_unretained (h : o.retention = none) : checkNewObject b o =
      .ok { o with eventBasedHold := o.eventBasedHold || b.defaultEventBasedHold } := by
  have hnone : o.retention.isSome = false := by
    rw [h]
    rfl
  unfold checkNewObject
  cases hd : b.defaultEventBasedHold <;> simp [hnone]

variable {now : Time}

theorem applyProtection_none (hr : o.retention = none) : applyProtection o {} {} false false now = .ok o := by
  have hnone : o.retention.isSome = false := by
    rw [hr]
    rfl
  simp [applyProtection, flag, changedRetention, hnone, bind, Except.bind]

theorem withStorageClass_fields (o : ObjectRecord) :
    withStorageClass b o = { o with storageClass := (withStorageClass b o).storageClass } := by
  unfold withStorageClass
  split_ifs <;> rfl

variable {generation : Int}

theorem FullMeta.record_unprotected
    (h : m.record p bucket content generation now = .ok r) (generation' : Int) (now' : Time) :
    ∃ o : ObjectRecord,
      ({ m with protection := {} } : FullMeta).record p bucket content generation' now' = .ok o ∧
      o.temporaryHold = false ∧ o.eventBasedHold = false ∧ o.retention = none ∧
      r = { o with
        generation, created := now, updated := now
        temporaryHold := decide (m.protection.temporaryHold = .value (some true))
        eventBasedHold := decide (m.protection.eventBasedHold = .value (some true))
        retention := r.retention } ∧
      (r.retention = none ↔ m.protection.retention = .absent ∨ m.protection.retention = .null ∨
        m.protection.retention = .value .emptyObject) := by
  obtain ⟨storageClass, hclass, h⟩ := Txn.except_bind_ok h
  obtain ⟨customTime, htime, h⟩ := Txn.except_bind_ok h
  obtain ⟨hr, hretention⟩ := applyProtection_new rfl rfl rfl h
  let o : ObjectRecord :=
    { bucket, name := m.name, generation := generation', metageneration := 1,
      blob := (blobOf content).id, size := (blobOf content).size,
      crc32c := (blobOf content).crc32c, storageClass, customTime, created := now', updated := now' }
  refine ⟨o, ?_, rfl, rfl, rfl, hr, hretention⟩
  have hclass' : parseStorageClass
      (({ m with protection := {} } : FullMeta).base p).storageClass = .ok storageClass := hclass
  have htime' : parseCustomTime
      (({ m with protection := {} } : FullMeta).base p).customTime = .ok customTime := htime
  have hplain : applyProtection o {} {} false false now' = .ok o := applyProtection_none rfl
  unfold FullMeta.record
  rw [hclass', htime']
  exact hplain

def bare (b : BucketRecord) (o : ObjectRecord) : ObjectRecord :=
  { withStorageClass b o with
    eventBasedHold := o.eventBasedHold || b.defaultEventBasedHold
    generation := 0, created := 0, updated := 0 }

theorem bare_of (o : ObjectRecord) : { withStorageClass b o with
      eventBasedHold := (withStorageClass b o).eventBasedHold || b.defaultEventBasedHold
      generation := 0, created := 0, updated := 0 } = bare b o := by
  have hhold : (withStorageClass b o).eventBasedHold = o.eventBasedHold := by
    rw [withStorageClass_fields]
  unfold bare
  rw [hhold]

theorem bare_eq_iff {t e : Bool} {x : Option ObjectRetention} (ht : o.temporaryHold = false) (he : o.eventBasedHold = false)
    (hn : o.retention = none)
    (hr : r = { o with
      generation, created := now, updated := now, temporaryHold := t, eventBasedHold := e,
      retention := x }) :
    bare b o = bare b r ↔ t = false ∧ (e = true → b.defaultEventBasedHold = true) ∧ x = none := by
  subst hr
  unfold bare withStorageClass
  by_cases hc : o.storageClass = none
  all_goals cases t <;> cases e <;> cases hd : b.defaultEventBasedHold <;> simp [hc, ht, he, hn, eq_comm]

theorem finalizeObject_unprotected {o : FullObject}
    (h : finalizeObject p b access bucket m content want generation now = .ok o)
    (generation' : Int) (now' : Time) :
    ∃ o', finalizeObject p b access bucket { m with protection := {} } content want generation' now' =
        .ok o' ∧ (SameUpload o o' ↔ m.protection.Plain b) := by
  unfold finalizeObject at h
  split at h
  · cases h
  · next hchecked =>
      obtain ⟨r, hr, h⟩ := Txn.except_bind_ok h
      obtain ⟨r', hr', h⟩ := Txn.except_bind_ok h
      obtain ⟨acl, hacl, h⟩ := Txn.except_bind_ok h
      cases h
      obtain ⟨x, hx, ht, he, hn, hfields, hretention⟩ :=
        FullMeta.record_unprotected hr generation' now'
      have hx' : (withStorageClass b x).retention = none := by
        rw [withStorageClass_fields]
        exact hn
      refine ⟨m.object p content now' { withStorageClass b x with
        eventBasedHold := (withStorageClass b x).eventBasedHold || b.defaultEventBasedHold } acl,
        ?_, ?_⟩
      · have hacl' : setUploadACL p b access { m with protection := {} }
            (newObjectACL p b access) = .ok acl := hacl
        unfold finalizeObject
        rw [hchecked, hx, hacl']
        simp only [bind, Except.bind]
        rw [checkNewObject_unretained hx']
        rfl
      · have hbare := bare_eq_iff (b := b) ht he hn hfields
        rw [decide_eq_false_iff_not, decide_eq_true_iff] at hbare
        constructor
        · intro hsame
          have hrecord := hsame.record
          rw [checkNewObject_ok hr'] at hrecord
          obtain ⟨h₁, h₂, h₃⟩ := hbare.mp ((bare_of x).symm.trans (hrecord.trans (bare_of r)))
          exact ⟨h₁, h₂, hretention.mp h₃⟩
        · rintro ⟨h₁, h₂, h₃⟩
          have hrecord := hbare.mpr ⟨h₁, h₂, hretention.mpr h₃⟩
          refine ⟨?_, rfl, rfl, rfl, rfl, rfl, rfl, rfl, rfl, rfl, fun k => ?_⟩
          · rw [checkNewObject_ok hr']
            exact (bare_of x).trans (hrecord.trans (bare_of r).symm)
          · unfold FullMeta.object
            cases m.contexts with
            | none => rfl
            | some v => exact applyContexts_values v now now' k

end Finalizing

def Admissible (created : Time) (n : Nat) : Nat → List Piece → Prop
  | _, [] => False
  | sent, q :: qs =>
    q.time - created < sessionLife ∧ n < 2 ^ 63 ∧
      if qs = [] then q.total = some n ∧ sent + q.bytes.length = n
      else q.bytes ≠ [] ∧ q.bytes.length % chunkUnit = 0 ∧
        (q.total = none ∨ (q.total = some n ∧ sent + q.bytes.length < n)) ∧
        Admissible created n (sent + q.bytes.length) qs

def lastTime (pieces : List Piece) : Time := (pieces.getLast?.map Piece.time).getD 0

section Sending

variable {p : Platform} {b : BucketRecord} {access : BucketAccess} {hashes : HashHeaders}
  {generation : Int} {s : FullSession}

def FullSession.extend (s : FullSession) (bytes : Bytes) : FullSession :=
  if bytes = [] then s
  else { s with
    chunks := s.chunks ++ [{ blob := bytes, size := bytes.length }]
    received := s.received + bytes.length }

structure FullSession.Holds (s : FullSession) (content : Bytes) : Prop where
  joined : s.chunks.flatMap (·.blob) = content
  received : s.received = content.length

variable {content : Bytes}

theorem FullSession.Holds.extend (h : s.Holds content) (bytes : Bytes) :
    (s.extend bytes).Holds (content ++ bytes) := by
  unfold FullSession.extend
  split_ifs with hb
  · rw [hb, List.append_nil]
    exact h
  · exact ⟨by simp [h.joined], by simp [h.received]⟩

theorem session_kept {t : Time} (h : t < sessionLife) : ¬ sessionLife + sessionGoneFor ≤ t :=
  not_le.mpr (h.trans_le (by decide))

variable {q : Piece}

theorem next_sent (hlife : q.time - s.created < sessionLife) (hbytes : q.bytes ≠ [])
    (hfits : s.received + q.bytes.length < 2 ^ 63)
    (hunit : q.total = some (s.received + q.bytes.length) ∨ q.bytes.length % chunkUnit = 0) :
    s.next p q = .ok (.save ((s.base p).extend (blobOf q.bytes))) := by
  have hlen : 0 < q.bytes.length := List.length_pos_of_ne_nil hbytes
  unfold FullSession.next
  rw [if_neg (session_kept hlife), if_neg (not_le.mpr hlife)]
  simp only [Piece.call, hbytes, if_false]
  unfold chunkRange
  have hbase : (s.base p).received = s.received := rfl
  have hsize : wrap ((s.received + q.bytes.length - 1 : Nat) - (s.received : Int) + 1) = q.bytes.length := by
    rw [wrap_eq ⟨by omega, by omega⟩]
    omega
  have hstop : wrap ((s.received + q.bytes.length - 1 : Nat) + 1 : Int) = (s.received + q.bytes.length : Nat) := by
    rw [wrap_eq ⟨by omega, by omega⟩]
    omega
  have hrest : wrap ((s.received + q.bytes.length : Nat) - (s.received : Int)) = q.bytes.length := by
    rw [wrap_eq ⟨by omega, by omega⟩]
    omega
  have hwhole : ¬ (q.total.map Int.ofNat ≠ some ((s.received + q.bytes.length : Nat) : Int) ∧
      (q.bytes.length : Int) % chunkUnit ≠ 0) := by
    rintro ⟨htotal, hmod⟩
    rcases hunit with hall | hunit
    · exact htotal (congrArg (Option.map Int.ofNat) hall)
    · exact hmod (by exact_mod_cast hunit)
  rw [hbase, if_neg (by omega)]
  simp only [hsize, hstop, hrest]
  rw [if_neg hwhole, if_neg (lt_irrefl _)]
  change (if (q.bytes.length : Int) ≤ 0 then _ else _) = _
  rw [if_neg (by omega)]
  change (if ((blobOf q.bytes).size : Int) ≠ q.bytes.length then _ else _) = _
  rw [if_neg (by simp [blobOf])]

theorem extend_eq_saved {bytes : Bytes} (h : bytes ≠ []) :
    s.extend bytes = s.saved ((s.base p).extend (blobOf bytes)) := by
  rw [FullSession.extend, if_neg h]
  rfl

theorem receive_saved {u : UploadSession} {next : SessionNext}
    (hnext : s.next p q = .ok (.save u)) (hafter : afterChunk (q.call s) u = .ok next) :
    s.receive p q = .ok (s.saved u, next.complete) := by
  unfold FullSession.receive
  rw [hnext]
  simp only [bind, Except.bind]
  rw [hafter]

theorem afterChunk_total {u : UploadSession} {n : Nat} (htotal : q.total = some n) (hle : u.received ≤ n) :
    ∃ next, afterChunk (q.call s) u = .ok next ∧ next.complete = decide (u.received = n) := by
  unfold afterChunk
  simp only [Piece.call, htotal]
  rw [if_neg (not_lt.mpr hle)]
  split_ifs with hlt
  · exact ⟨_, rfl, (decide_eq_false hlt.ne).symm⟩
  · exact ⟨_, rfl, (decide_eq_true (le_antisymm hle (not_lt.mp hlt))).symm⟩

theorem receive_sent (hlife : q.time - s.created < sessionLife) (hbytes : q.bytes ≠ [])
    (hfits : s.received + q.bytes.length < 2 ^ 63) (hunit : q.bytes.length % chunkUnit = 0)
    (htotal : q.total = none ∨ ∃ n, q.total = some n ∧ s.received + q.bytes.length < n) :
    s.receive p q = .ok (s.extend q.bytes, false) := by
  have hnext := next_sent (p := p) hlife hbytes hfits (.inr hunit)
  rw [extend_eq_saved hbytes]
  rcases htotal with htotal | ⟨n, htotal, hlt⟩
  · have hafter : afterChunk (q.call s) ((s.base p).extend (blobOf q.bytes)) =
        .ok (.incomplete (s.received + q.bytes.length)) := by
      simp only [afterChunk, Piece.call, htotal]
      rfl
    exact receive_saved hnext hafter
  · obtain ⟨next, hafter, hcomplete⟩ := afterChunk_total (s := s)
      (u := (s.base p).extend (blobOf q.bytes)) htotal hlt.le
    rw [receive_saved hnext hafter, hcomplete]
    exact congrArg (fun c => Except.ok (_, c)) (decide_eq_false hlt.ne)

theorem receive_last {n : Nat} (hlife : q.time - s.created < sessionLife)
    (hfits : n < 2 ^ 63) (htotal : q.total = some n) (hn : s.received + q.bytes.length = n) :
    s.receive p q = .ok (s.extend q.bytes, true) := by
  by_cases hbytes : q.bytes = []
  · have hreceived : s.received = n := by simpa [hbytes] using hn
    have hnext : s.next p q = .ok (.finish (s.base p)) := by
      have hrange : (q.call s).range = none := by
        simp only [Piece.call, hbytes, if_true]
      unfold FullSession.next
      rw [if_neg (session_kept hlife), if_neg (not_le.mpr hlife), hrange]
      simp only [afterChunk, Piece.call, htotal]
      change (if n < s.received then _ else if s.received < n then _ else _) = _
      rw [if_neg (not_lt.mpr hreceived.le), if_neg (not_lt.mpr hreceived.ge)]
    unfold FullSession.receive
    rw [hnext, FullSession.extend, if_pos hbytes]
    rfl
  · have hnext := next_sent (p := p) hlife hbytes (hn ▸ hfits) (.inl (hn.symm ▸ htotal))
    obtain ⟨next, hafter, hcomplete⟩ := afterChunk_total (s := s)
      (u := (s.base p).extend (blobOf q.bytes)) htotal hn.le
    rw [extend_eq_saved hbytes, receive_saved hnext hafter, hcomplete]
    exact congrArg (fun c => Except.ok (_, c)) (decide_eq_true hn)

structure FullSession.Begun (c : UploadCall) (m : FullMeta) (created : Time) (s : FullSession) : Prop where
  id : Valid s.id
  bucket : s.bucket = c.bucket
  upload : s.upload = m ∨ s.upload = { m with protection := {} }
  created : s.created = created
  headers : s.headers = ∅

variable {c : UploadCall} {m : FullMeta}

theorem FullSession.Begun.reread {created : Time} (hm : m.Clean) (h : s.Begun c m created) :
    s.reread = .ok { s with upload := { m with protection := {} } } := by
  have hupload : s.upload.Clean := by
    rcases h.upload with hu | hu
    · rw [hu]
      exact hm
    · rw [hu]
      exact ⟨hm.texts, hm.metadata, hm.acl, hm.contexts⟩
  rw [s.reread_eq h.id (by rw [h.bucket]; exact c.text.1) hupload (by simp [h.headers])]
  rcases h.upload with hu | hu <;> rw [hu]

theorem extend_fields (s : FullSession) (bytes : Bytes) :
    (s.extend bytes).id = s.id ∧ (s.extend bytes).bucket = s.bucket ∧
      (s.extend bytes).upload = s.upload ∧ (s.extend bytes).created = s.created ∧
      (s.extend bytes).headers = s.headers := by
  unfold FullSession.extend
  split_ifs <;> exact ⟨rfl, rfl, rfl, rfl, rfl⟩

theorem withHeaders_empty (metadata : Labels) : withHeaders metadata ∅ = metadata := by
  have hempty : (∅ : Labels).toList = [] := Std.ExtTreeMap.toList_eq_nil_iff.mpr rfl
  rw [withHeaders, Std.ExtTreeMap.foldl_eq_foldl_toList, hempty]
  rfl

theorem resumableFinish_eq {now : Time} (hs : s.Holds content) (hbucket : s.bucket = c.bucket)
    (hupload : s.upload = { m with protection := {} }) (hheaders : s.headers = ∅) :
    resumableFinish p b access hashes s generation now = (do
      let want ← expectedHashes hashes m
      finalizeObject p b access c.bucket { m with protection := {} } content want generation now) := by
  have hjoined : joinChunks s.chunks = blobOf content := by rw [joinChunks, hs.joined]
  unfold resumableFinish
  simp only [hjoined, hupload, hheaders, withHeaders_empty, hbucket]
  rw [if_neg (not_not.mpr (show (blobOf content).size = s.received from hs.received.symm))]
  rfl

theorem resume_admissible {created : Time} (hm : m.Clean)
    {pieces : List Piece} {sent : Bytes} (hs : s.Begun c m created) (hsent : s.Holds sent)
    (hpieces : Admissible created content.length sent.length pieces)
    (hcontent : sent ++ pieces.flatMap Piece.bytes = content) :
    resume p b access c.hashes generation s pieces = (do
      let want ← expectedHashes c.hashes m
      some <$> finalizeObject p b access c.bucket { m with protection := {} } content want
        generation (lastTime pieces)) := by
  induction pieces generalizing s sent with
  | nil => exact hpieces.elim
  | cons q qs ih =>
    obtain ⟨hlife, hfits, hrest⟩ := hpieces
    let stored : FullSession := { s with upload := { m with protection := {} } }
    have hlife' : q.time - stored.created < sessionLife := by
      rw [show stored.created = created from hs.created]
      exact hlife
    have hholds : stored.Holds sent := ⟨hsent.joined, hsent.received⟩
    obtain ⟨hid, hbucket, hupload, hcreated, hheaders⟩ := extend_fields stored q.bytes
    have hreceived : stored.received = sent.length := hsent.received
    rw [resume, hs.reread hm]
    simp only [bind, Except.bind]
    split_ifs at hrest with hqs
    · obtain ⟨htotal, hn⟩ := hrest
      subst hqs
      have hall : sent ++ q.bytes = content := by simpa using hcontent
      have hstep : stored.receive p q = .ok (stored.extend q.bytes, true) :=
        receive_last hlife' hfits htotal (hreceived ▸ hn)
      rw [hstep]
      change some <$> resumableFinish p b access c.hashes (stored.extend q.bytes) generation q.time = _
      rw [resumableFinish_eq (hall ▸ hholds.extend q.bytes) (hbucket.trans hs.bucket) hupload
        (hheaders.trans hs.headers)]
      cases expectedHashes c.hashes m <;> rfl
    · obtain ⟨hbytes, hunit, htotal, hmore⟩ := hrest
      have htotal' : q.total = none ∨ ∃ n, q.total = some n ∧ stored.received + q.bytes.length < n := by
        rcases htotal with htotal | ⟨htotal, hlt⟩
        · exact .inl htotal
        · exact .inr ⟨_, htotal, hreceived ▸ hlt⟩
      have hbegun : (stored.extend q.bytes).Begun c m created :=
        ⟨hid ▸ hs.id, hbucket.trans hs.bucket, .inr hupload, hcreated.trans hs.created,
          hheaders.trans hs.headers⟩
      have hlast : lastTime (q :: qs) = lastTime qs := by
        unfold lastTime
        rw [List.getLast?_cons, List.getLast?_eq_some_getLast hqs]
        rfl
      have hsize : sent.length + q.bytes.length ≤ content.length := by
        rw [← hcontent, List.flatMap_cons, List.length_append, List.length_append]
        omega
      have hstep : stored.receive p q = .ok (stored.extend q.bytes, false) :=
        receive_sent hlife' hbytes (hreceived ▸ hsize.trans_lt hfits) hunit htotal'
      rw [hstep, hlast]
      refine ih hbegun (hholds.extend q.bytes) ?_ ?_
      · rw [List.length_append]
        exact hmore
      · rw [List.append_assoc]
        exact hcontent

def UploadCall.protection (p : Platform) (c : UploadCall) : ProtectionBody :=
  match (parse c.raw).map clean with
  | some (.obj ms) => protectionOf p ms
  | _ => {}

theorem parse_blank {raw : Bytes} (h : skip raw = []) : parse raw = none := by
  simp [parse, parseValue, h]

theorem parseUploadMeta_protection {raw : Bytes} (h : parseUploadMeta p raw = .ok m) :
    m.protection = match (parse raw).map clean with
      | some (.obj ms) => protectionOf p ms
      | _ => {} := by
  unfold parseUploadMeta at h
  split_ifs at h with hblank
  · cases h
    rw [parse_blank hblank]
    rfl
  · split at h
    · next ms hms =>
        have hprotection : m.protection = protectionOf p ms := by
          split at h
          · cases h
          · obtain ⟨m', _, h⟩ := Txn.except_bind_ok h
            split at h <;> cases h
            rfl
        simpa only [hms] using hprotection
    · cases h

theorem UploadCall.metadata_protection (h : c.metadata p = .ok m) : m.protection = c.protection p := by
  obtain ⟨m', hm', h⟩ := Txn.except_bind_ok h
  dsimp only at h
  generalize (if m'.name = [] then c.name else m'.name) = name at h
  generalize (if m'.contentType = [] then c.mediaType else m'.contentType) = type at h
  split_ifs at h
  split at h
  · cases h
  · obtain ⟨key, _, h⟩ := Txn.except_bind_ok h
    cases h
    have hbody : m'.protection = c.protection p := parseUploadMeta_protection hm'
    exact hbody

theorem resumable_matches_multipart {c : UploadCall} {content : Bytes} {now : Time} {o : FullObject}
    (h : multipartUpload p b access c content generation now = .ok o) {id : Bytes} (hid : Valid id)
    {created : Time} {pieces : List Piece}
    (hpieces : Admissible created content.length 0 pieces)
    (hcontent : pieces.flatMap Piece.bytes = content) (generation' : Int) :
    (∃ o', resumableUpload p b access c id created ∅ pieces generation' = .ok (some o') ∧
      SameUpload o o') ↔ (c.protection p).Plain b := by
  obtain ⟨m, hm, h⟩ := Txn.except_bind_ok h
  obtain ⟨want, hwant, h⟩ := Txn.except_bind_ok h
  obtain ⟨o', ho', hsame⟩ := finalizeObject_unprotected h generation' (lastTime pieces)
  have hrun : resumableUpload p b access c id created ∅ pieces generation' = .ok (some o') := by
    have hbegun : FullSession.Begun c m created
        { id, bucket := c.bucket, upload := m, created, headers := ∅ } :=
      ⟨hid, rfl, .inl rfl, rfl, rfl⟩
    unfold resumableUpload
    rw [hm]
    refine (resume_admissible (UploadCall.metadata_clean hm) hbegun ⟨rfl, rfl⟩ hpieces hcontent).trans ?_
    rw [hwant]
    simp only [bind, Except.bind]
    rw [ho']
    rfl
  rw [← UploadCall.metadata_protection hm, ← hsame, hrun]
  constructor
  · rintro ⟨o'', ho'', hsame'⟩
    cases ho''
    exact hsame'
  · exact fun hsame' => ⟨o', rfl, hsame'⟩

end Sending

def plainPlatform : Platform where
  letterOrDigit := fun _ => true
  parseTime := fun _ => none
  md5 := fun content => content
  projectNumber := fun _ => 7

def mapsBucket : BucketRecord := { name := ascii "maps" }

def sheetUpload : UploadCall where
  bucket := ascii "maps"
  raw := ascii "\x7b\"name\":\"sheet\",\"metadata\":\x7b\"scale\":\"small\"\x7d\x7d"

def heldSheetUpload : UploadCall where
  bucket := ascii "maps"
  raw := ascii "\x7b\"name\":\"sheet\",\"temporaryHold\":true\x7d"

def sheetPieces : List Piece := [⟨ascii "abc", some 3, 2⟩]

theorem sheetPieces_admissible : Admissible 1 (ascii "abc").length 0 sheetPieces := by
  refine ⟨by decide, by decide, ?_⟩
  rw [if_pos rfl]
  exact ⟨rfl, rfl⟩

theorem sheet_accepted :
    (multipartUpload plainPlatform mapsBucket {} sheetUpload (ascii "abc") 1 1).toOption.isSome := by
  decide +kernel

def sheetObject : FullObject :=
  (multipartUpload plainPlatform mapsBucket {} sheetUpload (ascii "abc") 1 1).toOption.get
    sheet_accepted

theorem sheet_upload :
    multipartUpload plainPlatform mapsBucket {} sheetUpload (ascii "abc") 1 1 = .ok sheetObject := by
  have hget : some sheetObject =
      (multipartUpload plainPlatform mapsBucket {} sheetUpload (ascii "abc") 1 1).toOption :=
    Option.some_get sheet_accepted
  generalize multipartUpload plainPlatform mapsBucket {} sheetUpload (ascii "abc") 1 1 = r at hget
  cases r with
  | error e => cases hget
  | ok o => exact congrArg Except.ok (Option.some.inj hget).symm

theorem sheet_matches :
    (∃ o', resumableUpload plainPlatform mapsBucket {} sheetUpload (ascii "s") 1 ∅ sheetPieces 2 =
        .ok (some o') ∧ SameUpload sheetObject o') ↔
      (sheetUpload.protection plainPlatform).Plain mapsBucket :=
  resumable_matches_multipart sheet_upload (by decide) sheetPieces_admissible (by decide) 2

theorem session_drops_hold :
    (multipartUpload plainPlatform mapsBucket {} heldSheetUpload (ascii "abc") 1 1).toOption.map
        (·.record.temporaryHold) = some true ∧
      ((resumableUpload plainPlatform mapsBucket {} heldSheetUpload (ascii "s") 1 ∅ sheetPieces
        2).toOption.bind id).map (·.record.temporaryHold) = some false := by
  decide +kernel

end CloudBurrow.Storage
