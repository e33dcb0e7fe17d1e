import CloudBurrow.Process.OrderedMap
import CloudBurrow.Storage.LogRecord
import CloudBurrow.Tasks.Names

namespace CloudBurrow.DataDir

open Utf8 JsonText OrderedMap
open Metastore (Map)
open LogRecord (ValidMap decodeEntry decodeBytes decodeSnapshot toValid_base64 ofList_toList)

section Keys

def safeKey (key : Bytes) : Bool :=
  key ≠ [] && key.head? ≠ some Tasks.slash &&
    !([ascii "..", ascii "%2e%2e", ascii "%2f", ascii "%5c", [0], [92]].any fun bad =>
      Tasks.contains bad (key.map Tasks.toLower))

inductive Op where
  | put (key value : Bytes)
  | delete (key : Bytes)
deriving DecidableEq

def Op.key : Op → Bytes
  | .put key _ => key
  | .delete key => key

def Op.apply (m : Map) : Op → Map
  | .put key value => m.insert key value
  | .delete key => m.erase key

def staged (m : Map) (ops : List Op) : Map := ops.foldl Op.apply m

def safeOps (ops : List Op) : Bool := ops.all fun op => safeKey op.key

inductive Refusal where
  | unsafeKey
  | notFound
deriving DecidableEq

def lookup (data : Map) (key : Bytes) : Except Refusal Bytes :=
  if safeKey key then
    match data[key]? with
    | none => .error .notFound
    | some value => .ok value
  else .error .unsafeKey

def listKeys (data : Map) (pre : Bytes) : List Bytes :=
  (data.keys.filter fun k => pre.isPrefixOf k).mergeSort fun a b => (compare a b).isLE

end Keys

section Memory

structure Memory where
  data : Map

def Memory.get (m : Memory) : Bytes → Except Refusal Bytes := lookup m.data

def Memory.list (m : Memory) : Bytes → List Bytes := listKeys m.data

def Memory.commit (m : Memory) (ops : List Op) : Except Refusal Memory :=
  if safeOps ops then .ok ⟨staged m.data ops⟩ else .error .unsafeKey

def Memory.after (calls : List (List Op)) : Memory :=
  calls.foldl (fun m ops => (m.commit ops).toOption.getD m) ⟨∅⟩

theorem Memory.after_append (calls : List (List Op)) {ops : List Op} (h : safeOps ops = true) :
    Memory.after (calls ++ [ops]) = ⟨staged (Memory.after calls).data ops⟩ := by
  simp [Memory.after, List.foldl_append, Memory.commit, h, Except.toOption]

end Memory

section Files

def metadataJson (m : Map) : Json :=
  .obj (m.toList.map fun p => (p.1, if p.2 = [] then .null else .str (Base64.encode p.2)))

def metadataText (m : Map) : Bytes := encode (metadataJson m)

def load : Option Bytes → Option Map
  | none => some ∅
  | some text => (parse text).bind decodeSnapshot

structure Files where
  metadata : Option Bytes
  tmp : Option Bytes

theorem decodeEntry_metadata {p : Bytes × Bytes} (h : Valid p.1) :
    decodeEntry (toValid p.1, clean (if p.2 = [] then .null else .str (Base64.encode p.2))) = some p := by
  obtain ⟨k, v⟩ := p
  rw [toValid_of_valid _ h]
  by_cases hv : v = []
  · subst hv
    rfl
  · simp only [hv, if_false, clean, decodeEntry, decodeBytes, toValid_base64, Base64.decode_encode, Option.map_some]

theorem mapM_decodeEntry_metadata (entries : List (Bytes × Bytes)) (h : ∀ p ∈ entries, Valid p.1) :
    (entries.map fun p => (toValid p.1, clean (if p.2 = [] then .null else .str (Base64.encode p.2)))).mapM
      decodeEntry = some entries := by
  induction entries with
  | nil => rfl
  | cons p entries ih =>
    obtain ⟨hp, hentries⟩ := List.forall_mem_cons.mp h
    rw [List.map_cons, List.mapM_cons, decodeEntry_metadata hp, ih hentries]
    rfl

theorem load_text {m : Map} (h : ValidMap m) : load (some (metadataText m)) = some m := by
  have hparse : parse (metadataText m) = some (clean (metadataJson m)) := by
    have hwhole := parse_encode (metadataJson m) (t := []) (by simp)
    rwa [List.append_nil] at hwhole
  have hkeys : ∀ p ∈ m.toList, Valid p.1 := fun p hp =>
    h p.1 (Std.ExtTreeMap.mem_iff_isSome_getElem?.mpr
      (by simp [Std.ExtTreeMap.mem_toList_iff_getElem?_eq_some.mp hp]))
  have hentries := mapM_decodeEntry_metadata m.toList hkeys
  rw [load, hparse, Option.bind_some, metadataJson, clean, cleanMembers_eq_map, List.map_map, decodeSnapshot]
  simp only [Function.comp_def]
  rw [hentries, Option.map_some, ofList_toList]

end Files

section Durable

inductive Flush where
  | idle
  | creates (ops : List Op) (prev : Map)
  | writes (ops : List Op) (prev : Map)
  | syncs (ops : List Op) (prev : Map)
  | closes (ops : List Op) (prev : Map)
  | renames (ops : List Op) (prev : Map)
  | replaced (ops : List Op)

structure Durable where
  files : Files
  data : Map
  flush : Flush

namespace Durable

def get (d : Durable) : Bytes → Except Refusal Bytes := lookup d.data

def list (d : Durable) : Bytes → List Bytes := listKeys d.data

def commit (d : Durable) (ops : List Op) : Durable :=
  if safeOps ops then { d with data := staged d.data ops, flush := .creates ops d.data } else d

def advance (d : Durable) : Durable :=
  match d.flush with
  | .idle => d
  | .creates ops prev => { d with files := { d.files with tmp := some [] }, flush := .writes ops prev }
  | .writes ops prev =>
    { d with files := { d.files with tmp := some (metadataText d.data) }, flush := .syncs ops prev }
  | .syncs ops prev => { d with flush := .closes ops prev }
  | .closes ops prev => { d with flush := .renames ops prev }
  | .renames ops _ => { d with files := ⟨d.files.tmp, none⟩, flush := .replaced ops }
  | .replaced _ => { d with flush := .idle }

def fail (d : Durable) : Durable :=
  match d.flush with
  | .idle => d
  | .creates _ prev | .writes _ prev | .syncs _ prev | .closes _ prev | .renames _ prev =>
    { d with files := { d.files with tmp := none }, data := prev, flush := .idle }
  | .replaced _ => { d with flush := .idle }

end Durable

def Flush.done : Flush → List (List Op)
  | .replaced ops => [ops]
  | _ => []

def Flush.pending : Flush → List (List Op)
  | .idle => []
  | .creates ops _ | .writes ops _ | .syncs ops _ | .closes ops _ | .renames ops _ => [ops]
  | .replaced ops => [ops]

structure Host where
  store : Durable
  calls : List (List Op)

inductive Step (ok : List Op → Prop) : Host → Host → Prop
  | commit (h : Host) (ops : List Op) : h.store.flush = .idle → ok ops → Step ok h { h with store := h.store.commit ops }
  | advance (h : Host) : Step ok h ⟨h.store.advance, h.calls ++ h.store.flush.done⟩
  | fail (h : Host) : Step ok h ⟨h.store.fail, h.calls ++ h.store.flush.done⟩
  | reopen (h : Host) (data : Map) : load h.store.files.metadata = some data →
      Step ok h ⟨⟨h.store.files, data, .idle⟩, h.calls ++ h.store.flush.done⟩

def fresh : Host := ⟨⟨⟨none, none⟩, ∅, .idle⟩, []⟩

structure Faithful (h : Host) : Prop where
  answers : h.store.flush = .idle → (∀ key, h.store.get key = (Memory.after h.calls).get key) ∧
    ∀ pre, h.store.list pre = (Memory.after h.calls).list pre
  reopens : ∃ data calls, load h.store.files.metadata = some data ∧
    (calls = h.calls ∨ calls = h.calls ++ h.store.flush.pending) ∧
    (∀ key, lookup data key = (Memory.after calls).get key) ∧ ∀ pre, listKeys data pre = (Memory.after calls).list pre

def Op.ValidKey : Op → Prop
  | .put key _ => Valid key
  | .delete _ => True

instance : DecidablePred Op.ValidKey
  | .put key _ => inferInstanceAs (Decidable (Valid key))
  | .delete _ => .isTrue trivial

def ValidOps (ops : List Op) : Prop := ∀ op ∈ ops, op.ValidKey

instance (ops : List Op) : Decidable (ValidOps ops) := inferInstanceAs (Decidable (∀ op ∈ ops, op.ValidKey))

end Durable

section Invariant

variable {ops : List Op}

theorem validMap_staged (hops : ValidOps ops) {m : Map} (hm : ValidMap m) : ValidMap (staged m ops) := by
  induction ops generalizing m with
  | nil => exact hm
  | cons op ops ih =>
    obtain ⟨hop, hrest⟩ := List.forall_mem_cons.mp hops
    refine ih hrest fun k hk => ?_
    cases op with
    | put key value =>
      rcases Std.ExtTreeMap.mem_insert.mp hk with heq | hmem
      · rw [← Std.compare_eq_iff_eq.mp heq]
        exact hop
      · exact hm k hmem
    | delete key => exact hm k (Std.ExtTreeMap.mem_erase.mp hk).2

structure Flushing (h : Host) (ops : List Op) (prev : Map) : Prop where
  safe : safeOps ops = true
  valid : ValidOps ops
  before : prev = (Memory.after h.calls).data
  data : h.store.data = staged prev ops

def Underway (h : Host) : Prop :=
  match h.store.flush with
  | .idle => h.store.data = (Memory.after h.calls).data
  | .creates ops prev | .writes ops prev => Flushing h ops prev
  | .syncs ops prev | .closes ops prev | .renames ops prev =>
    Flushing h ops prev ∧ h.store.files.tmp = some (metadataText h.store.data)
  | .replaced ops => safeOps ops = true ∧ h.store.data = (Memory.after (h.calls ++ [ops])).data

structure Sound (h : Host) : Prop where
  valid : ValidMap (Memory.after (h.calls ++ h.store.flush.done)).data
  stored : load h.store.files.metadata = some (Memory.after (h.calls ++ h.store.flush.done)).data
  underway : Underway h

theorem sound_fresh : Sound fresh := ⟨by simp [fresh, Flush.done, Memory.after, ValidMap], rfl, rfl⟩

variable {h : Host}

theorem sound_commit (hs : Sound h) (hidle : h.store.flush = .idle) (hops : ValidOps ops) :
    Sound { h with store := h.store.commit ops } := by
  obtain ⟨⟨files, data, flush⟩, calls⟩ := h
  obtain rfl : flush = .idle := hidle
  unfold Durable.commit
  split_ifs with hsafe
  · exact ⟨hs.valid, hs.stored, hsafe, hops, hs.underway, rfl⟩
  · exact hs

theorem Sound.flushes {d : Durable} (hs : Sound h) (hdone : h.store.flush.done = [])
    (hdone' : d.flush.done = []) (hfile : d.files.metadata = h.store.files.metadata)
    (hunder : Underway ⟨d, h.calls⟩) : Sound ⟨d, h.calls ++ h.store.flush.done⟩ := by
  obtain ⟨hvalid, hstored, -⟩ := hs
  rw [hdone, List.append_nil] at hvalid hstored ⊢
  refine ⟨?_, ?_, hunder⟩
  · rw [hdone', List.append_nil]
    exact hvalid
  · rw [hdone', List.append_nil, hfile]
    exact hstored

theorem Sound.settles {d : Durable} (hs : Sound h) (hidle : d.flush = .idle)
    (hfile : d.files.metadata = h.store.files.metadata)
    (hdata : d.data = (Memory.after (h.calls ++ h.store.flush.done)).data) :
    Sound ⟨d, h.calls ++ h.store.flush.done⟩ := by
  obtain ⟨hvalid, hstored, -⟩ := hs
  obtain ⟨files, data, flush⟩ := d
  obtain rfl : flush = .idle := hidle
  rw [← hfile] at hstored
  refine ⟨?_, ?_, hdata⟩
  · simpa only [Flush.done, List.append_nil] using hvalid
  · simpa only [Flush.done, List.append_nil] using hstored

theorem Flushing.valid_data {prev : Map} (hf : Flushing h ops prev)
    (hm : ValidMap (Memory.after h.calls).data) : ValidMap h.store.data := by
  rw [hf.data, hf.before]
  exact validMap_staged hf.valid hm

theorem Flushing.after {prev : Map} (hf : Flushing h ops prev) :
    (Memory.after (h.calls ++ [ops])).data = h.store.data := by
  rw [Memory.after_append h.calls hf.safe, hf.data, hf.before]

theorem sound_advance (hs : Sound h) : Sound ⟨h.store.advance, h.calls ++ h.store.flush.done⟩ := by
  obtain ⟨⟨files, data, flush⟩, calls⟩ := h
  have hunder := hs.underway
  cases flush with
  | idle => exact hs.flushes rfl rfl rfl hunder
  | creates ops prev =>
    exact hs.flushes rfl rfl rfl ⟨hunder.safe, hunder.valid, hunder.before, hunder.data⟩
  | writes ops prev =>
    exact hs.flushes rfl rfl rfl ⟨⟨hunder.safe, hunder.valid, hunder.before, hunder.data⟩, rfl⟩
  | syncs ops prev | closes ops prev =>
    exact hs.flushes rfl rfl rfl ⟨⟨hunder.1.safe, hunder.1.valid, hunder.1.before, hunder.1.data⟩, hunder.2⟩
  | renames ops prev =>
    obtain ⟨hflush, htmp⟩ := hunder
    have hvalid := hs.valid
    simp only [Flush.done, List.append_nil] at hvalid ⊢
    have hdata : ValidMap data := hflush.valid_data hvalid
    have hafter : (Memory.after (calls ++ [ops])).data = data := hflush.after
    refine ⟨?_, ?_, hflush.safe, hafter.symm⟩
    · exact hafter.symm ▸ hdata
    · exact (congrArg load htmp).trans ((load_text hdata).trans (congrArg some hafter.symm))
  | replaced ops => exact hs.settles rfl rfl hunder.2

theorem sound_fail (hs : Sound h) : Sound ⟨h.store.fail, h.calls ++ h.store.flush.done⟩ := by
  obtain ⟨⟨files, data, flush⟩, calls⟩ := h
  have hunder := hs.underway
  cases flush with
  | idle => exact hs.flushes rfl rfl rfl hunder
  | creates ops prev | writes ops prev => exact hs.flushes rfl rfl rfl hunder.before
  | syncs ops prev | closes ops prev | renames ops prev => exact hs.flushes rfl rfl rfl hunder.1.before
  | replaced ops => exact sound_advance hs

theorem sound_reopen (hs : Sound h) {data : Map} (hload : load h.store.files.metadata = some data) :
    Sound ⟨⟨h.store.files, data, .idle⟩, h.calls ++ h.store.flush.done⟩ :=
  hs.settles rfl rfl (Option.some.inj (hload.symm.trans hs.stored))

theorem sound_of_run (hr : Relation.ReflTransGen (Step ValidOps) fresh h) : Sound h := by
  induction hr with
  | refl => exact sound_fresh
  | tail _ hstep ih =>
    cases hstep with
    | commit ops hidle hops => exact sound_commit ih hidle hops
    | advance => exact sound_advance ih
    | fail => exact sound_fail ih
    | reopen data hload => exact sound_reopen ih hload

theorem Sound.faithful (hs : Sound h) : Faithful h := by
  constructor
  · intro hidle
    have hunder := hs.underway
    simp only [Underway, hidle] at hunder
    simp only [Durable.get, Durable.list, Memory.get, Memory.list, hunder, implies_true, and_self]
  · refine ⟨_, h.calls ++ h.store.flush.done, hs.stored, ?_, fun _ => rfl, fun _ => rfl⟩
    cases h.store.flush with
    | replaced ops => exact .inr rfl
    | _ => exact .inl (List.append_nil _)

end Invariant

theorem durable_is_memory {h : Host} (hr : Relation.ReflTransGen (Step ValidOps) fresh h) : Faithful h :=
  (sound_of_run hr).faithful

def Host.commits (h : Host) (ops : List Op) : Host :=
  ⟨⟨⟨some (metadataText (staged h.store.data ops)), none⟩, staged h.store.data ops, .idle⟩, h.calls ++ [ops]⟩

theorem run_commits {ok : List Op → Prop} {h : Host} {ops : List Op} (hidle : h.store.flush = .idle)
    (hsafe : safeOps ops = true) (hok : ok ops) : Relation.ReflTransGen (Step ok) h (h.commits ops) := by
  obtain ⟨⟨files, data, flush⟩, calls⟩ := h
  obtain rfl : flush = .idle := hidle
  have hcommit : Step ok ⟨⟨files, data, .idle⟩, calls⟩ _ := .commit _ ops rfl hok
  simp only [Durable.commit, hsafe, if_true] at hcommit
  refine .head hcommit (.head (.advance _) (.head (.advance _) (.head (.advance _) (.head (.advance _)
    (.head (.advance _) (.head (.advance _) ?_))))))
  simp only [Durable.advance, Flush.done, List.append_nil, Host.commits]
  exact .refl

def Host.fails (h : Host) : Host := ⟨⟨⟨h.store.files.metadata, none⟩, h.store.data, .idle⟩, h.calls⟩

theorem run_fails {ok : List Op → Prop} {h : Host} (ops : List Op) (hidle : h.store.flush = .idle)
    (hsafe : safeOps ops = true) (hok : ok ops) : Relation.ReflTransGen (Step ok) h h.fails := by
  obtain ⟨⟨files, data, flush⟩, calls⟩ := h
  obtain rfl : flush = .idle := hidle
  have hcommit : Step ok ⟨⟨files, data, .idle⟩, calls⟩ _ := .commit _ ops rfl hok
  simp only [Durable.commit, hsafe, if_true] at hcommit
  refine .head hcommit (.head (.advance _) (.head (.fail _) ?_))
  simp only [Durable.advance, Durable.fail, Flush.done, List.append_nil, Host.fails]
  exact .refl

def kept : Host := (fresh.commits [.put (ascii "queues/a") (ascii "x")]).fails

theorem durable_is_memory_after_put : Faithful (kept.commits [.put (ascii "queues/b") [], .delete (ascii "queues/a")]) := by
  have hput : Relation.ReflTransGen (Step ValidOps) fresh kept :=
    (run_commits rfl (by decide +kernel) (by decide +kernel)).trans
      (run_fails [.put (ascii "queues/b") (ascii "y")] rfl (by decide +kernel) (by decide +kernel))
  have hreopen : Step ValidOps kept kept :=
    .reopen kept kept.store.data (load_text (validMap_staged (by decide +kernel) (by simp [ValidMap, fresh])))
  exact durable_is_memory ((hput.tail hreopen).trans (run_commits rfl (by decide +kernel) (by decide +kernel)))

def brokenKey : Bytes := [107, 255]

theorem durable_forgets_key : ¬ ∀ h, Relation.ReflTransGen (Step fun _ => True) fresh h → Faithful h := by
  intro hall
  obtain ⟨-, data, calls, hload, hcalls, hget, -⟩ :=
    hall (fresh.commits [.put brokenKey [1]]) (run_commits rfl (by decide +kernel) trivial)
  have hcalls : calls = [[.put brokenKey [1]]] := by
    rcases hcalls with rfl | rfl <;> rfl
  have hmemory : (Memory.after [[.put brokenKey [1]]]).get brokenKey = .ok [1] := by decide +kernel
  have hstored : (load (fresh.commits [.put brokenKey [1]]).store.files.metadata).map (lookup · brokenKey) =
      some (.error .notFound) := by decide +kernel
  rw [hload, Option.map_some, hget, hcalls, hmemory] at hstored
  cases hstored

end CloudBurrow.DataDir
