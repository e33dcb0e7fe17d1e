import CloudBurrow.Storage.Stock

namespace CloudBurrow.Storage

open Utf8 Inventory Transaction

variable {ks : List Kind} {tx : Tx}

theorem Beside.put_both {tx' : Tx} (h : Beside ks tx tx') (k : Kind) (key : Bytes) (v : Val k) :
    Beside ks { tx with store := tx.store.put k key v }
      { tx' with store := tx'.store.put k key v } := by
  refine ⟨fun k' hk' => ?_, h.lastGen, h.clock⟩
  by_cases hk : k' = k
  · subst hk
    simp only [Store.put_self, h.store k' hk']
  · simp only [Store.put_other _ hk, h.store k' hk']

theorem Beside.trans {a b c : Tx} (h : Beside ks a b) (h' : Beside ks b c) : Beside ks a c := IsTrans.trans _ _ _ h h'

def quietKinds : List Kind := .folder :: notifyKinds

theorem emit_run (ev : ObjectEvent) (tx : Tx) :
    ∃ tx', emit ev tx = (.ok (), tx') ∧ Beside notifyKinds tx tx' := by
  obtain ⟨a, tx', h, hb⟩ := runs_emit ev tx
  exact ⟨tx', h, hb⟩

theorem runs_getFolder (bucket name : Bytes) : Runs (Beside ks) (getFolder bucket name) :=
  runs_bind (runs_get _ _) fun _ => runs_pure _

theorem runs_ensureFolders (n : Nat) (bucket dir : Bytes) (now : Time) :
    Runs (Beside [.folder]) (ensureFolders n bucket dir now) := by
  induction n generalizing dir with
  | zero => exact runs_pure ()
  | succ n ih =>
    unfold ensureFolders
    split_ifs
    · exact runs_pure ()
    · refine runs_bind (runs_getFolder _ _) fun f => ?_
      cases f with
      | some _ => exact runs_pure ()
      | none => exact runs_bind (ih _) fun _ => runs_put (by simp) _ _

theorem runs_objectFolders (o : ObjectRecord) (now : Time) :
    Runs (Beside [.folder]) (objectFolders o now) := by
  refine runs_bind (runs_get _ _) fun b => ?_
  cases b with
  | none => exact runs_pure ()
  | some b =>
    dsimp only
    split_ifs
    · exact runs_pure ()
    · exact runs_ensureFolders _ _ _ _

def stored (s : Store) (o : ObjectRecord) : Store :=
  s.put .object (objectKey o.bucket o.name) o.recode

theorem putObject_run (o : ObjectRecord) (tx : Tx) :
    putObject o tx = (.ok (), { tx with store := stored tx.store o }) := rfl

theorem filed_run (o : ObjectRecord) (now : Time) (tx : Tx) :
    ∃ tx', (objectFolders o now >>= fun _ => putObject o) tx = (.ok (), tx') ∧
      Beside [.folder] { tx with store := stored tx.store o } tx' := by
  obtain ⟨_, tx₁, h, hb⟩ := runs_objectFolders o now tx
  exact ⟨_, (Txn.bind_ok h).trans (putObject_run o tx₁), hb.put_both _ _ _⟩

theorem finalized_run (o : ObjectRecord) (cur : Option ObjectRecord) (now : Time) (tx : Tx) :
    ∃ tx', finalized o cur now tx = (.ok (), tx') ∧
      Beside quietKinds { tx with store := stored tx.store o } tx' := by
  obtain ⟨_, tx₁, h, hb⟩ := runs_objectFolders o now tx
  obtain ⟨tx₂, h₂, hb₂⟩ := emit_run
    { type := .finalize, object := o, overwrote := (cur.map (·.generation)).getD 0, time := now }
    { tx₁ with store := stored tx₁.store o }
  refine ⟨tx₂, ?_, ?_⟩
  · rw [finalized, Txn.bind_ok h, Txn.bind_ok (putObject_run o tx₁), h₂]
  · exact ((hb.put_both _ _ _).mono (by decide)).trans (hb₂.mono (by decide))

def discarded (b : BucketRecord) (o : ObjectRecord) (now : Time) (s : Store) : Store :=
  if b.softRetention = 0 then s
  else Shelf.softdeleted.write s (objectKey b.name o.name)
    (Shelf.softdeleted.read s (objectKey b.name o.name) ++ [(o.softened b now).recode])

theorem discard_run (b : BucketRecord) (o : ObjectRecord) (now : Time) (tx : Tx) :
    discard b o now tx = (.ok (), { tx with store := discarded b o now tx.store }) := by
  unfold discard discarded
  split_ifs <;> rfl

theorem removed_run (b : BucketRecord) (o : ObjectRecord) (now : Time) (g : Int) (tx : Tx) :
    ∃ tx', removed b o now g tx = (.ok (), tx') ∧
      Beside notifyKinds { tx with store := discarded b o now tx.store } tx' := by
  rw [removed, Txn.bind_ok (discard_run b o now tx)]
  exact emit_run _ _

def retired (b : BucketRecord) (name : Bytes) (now : Time) (cur : ObjectRecord) (s : Store) : Store :=
  let key := objectKey b.name name
  let s := s.delete .object key
  if b.versioningEnabled then
    Shelf.noncurrent.write s key (Shelf.noncurrent.read s key ++ [(cur.archived now).recode])
  else discarded b cur now s

variable {b : BucketRecord} {name : Bytes} {now : Time} {g : Int}

theorem retireLive_cases (b : BucketRecord) (name : Bytes) (now : Time) (g : Int) (tx : Tx) :
    (tx.store.get .object (objectKey b.name name) = none ∧ retireLive b name now g tx = (.ok (), tx)) ∨
    (∃ e, retireLive b name now g tx = (.error e, tx)) ∨
    ∃ cur, tx.store.get .object (objectKey b.name name) = some cur ∧
      protect b cur now b.versioningEnabled = none ∧ ∃ tx', retireLive b name now g tx = (.ok (), tx') ∧
        Beside notifyKinds { tx with store := retired b name now cur tx.store } tx' := by
  cases h : tx.store.get .object (objectKey b.name name) with
  | none =>
    have hget : getObject b.name name tx = (.ok none, tx) := by
      rw [← h]
      rfl
    refine .inl ⟨rfl, ?_⟩
    rw [retireLive, Txn.bind_ok hget]
    rfl
  | some cur =>
    have hget : getObject b.name name tx = (.ok (some cur), tx) := by
      rw [← h]
      rfl
    rw [retireLive, Txn.bind_ok hget]
    dsimp only
    cases hp : protect b cur now b.versioningEnabled with
    | some e => exact .inr (.inl ⟨e, Txn.check_some_bind ..⟩)
    | none =>
      rw [Txn.check_none_bind]
      refine .inr (.inr ⟨cur, rfl, hp, ?_⟩)
      unfold retired
      cases hv : b.versioningEnabled with
      | true => exact emit_run _ _
      | false => exact removed_run b cur now g _

def found (s : Store) (bucket name : Bytes) (generation : GenParam) : Option (ObjectRecord × Bool) :=
  let o := s.get .object (objectKey bucket name)
  if generation = .live ∨ o.any generation.names then o.map fun o => (o, true)
  else ((byGeneration (Shelf.noncurrent.read s (objectKey bucket name))).find?
    generation.names).map fun v => (v, false)

theorem findVersion_run (bucket name : Bytes) (generation : GenParam) (tx : Tx) :
    findVersion bucket name generation tx = (.ok (found tx.store bucket name generation), tx) := by
  unfold found
  dsimp only
  by_cases hl : generation = .live
  · rw [if_pos (.inl hl)]
    simp only [findVersion, hl, if_true]
    rfl
  · by_cases ho : (tx.store.get .object (objectKey bucket name)).any generation.names = true
    · rw [if_pos (.inr ho)]
      simp only [findVersion, hl, if_false, getObject, Tx.get, Txn.read_bind, ho, if_true]
      rfl
    · rw [if_neg (not_or.mpr ⟨hl, ho⟩)]
      simp only [findVersion, hl, if_false, getObject, Tx.get, Txn.read_bind, ho]
      rfl

variable {o : ObjectRecord}

theorem found_live {s : Store} {bucket : Bytes} {generation : GenParam}
    (h : found s bucket name generation = some (o, true)) :
    s.get .object (objectKey bucket name) = some o := by
  unfold found at h
  dsimp only at h
  split_ifs at h with hc
  · obtain ⟨x, hx, heq⟩ := Option.map_eq_some_iff.mp h
    rw [hx]
    exact congrArg some (congrArg Prod.fst heq)
  · obtain ⟨x, -, heq⟩ := Option.map_eq_some_iff.mp h
    exact absurd (congrArg Prod.snd heq) (by simp)

theorem mem_byGeneration {vs : List ObjectRecord} :
    o ∈ byGeneration vs ↔ o ∈ vs := (List.perm_insertionSort _ vs).mem_iff

theorem found_kept {s : Store} {bucket : Bytes} {generation : GenParam}
    (h : found s bucket name generation = some (o, false)) :
    o ∈ Shelf.noncurrent.read s (objectKey bucket name) := by
  unfold found at h
  dsimp only at h
  split_ifs at h with hc
  · obtain ⟨x, -, heq⟩ := Option.map_eq_some_iff.mp h
    exact absurd (congrArg Prod.snd heq) (by simp)
  · obtain ⟨x, hx, heq⟩ := Option.map_eq_some_iff.mp h
    have hxo : x = o := congrArg Prod.fst heq
    exact hxo ▸ mem_byGeneration.mp (List.mem_of_find?_eq_some hx)

end CloudBurrow.Storage
