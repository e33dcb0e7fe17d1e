import CloudBurrow.Disk.AppendFile
import CloudBurrow.Storage.LogRecord

namespace CloudBurrow.Recovery

open Utf8 JsonText Metastore LogRecord AppendFile

structure Files where
  snapshot : Option Bytes
  tmp : Option Bytes
  log : File UInt8

structure LogMetaStore where
  data : Map
  logBytes : Nat
  liveSize : Int

def recountLive (m : Map) : Int :=
  m.toList.foldl (fun n p => n + ((p.1.length + p.2.length : Nat) : Int)) 0

def readSnapshot : Option Bytes → Option Map
  | none => some ∅
  | some text => (parse text).bind decodeSnapshot

def openLogMetaStore (f : Files) : Option (LogMetaStore × Files) :=
  (readSnapshot f.snapshot).map fun base =>
    let log := f.log.current
    let r := replay (log.length + 1) base log
    (⟨r.1, r.2, recountLive r.1⟩, { f with log := f.log.edit (.truncate r.2) })

abbrev Txn := List Write

inductive Stage where
  | idle
  | logging (tx : Txn)
  | written (tx : Txn)
  | synced (tx : Txn)
  | tmpOpened (tx : Txn)
  | tmpWritten (tx : Txn)
  | tmpSynced (tx : Txn)
  | renamed (tx : Txn)
  | truncated (tx : Txn)

structure Host where
  files : Files
  store : LogMetaStore
  stage : Stage
  acked : List Txn
  logged : List Txn

def LogMetaStore.record (s : LogMetaStore) (tx : Txn) : Bytes :=
  line (MemTx.run s.data tx).ordered

def LogMetaStore.commit (s : LogMetaStore) (tx : Txn) : LogMetaStore :=
  let c := Metastore.commit s.data (MemTx.run s.data tx).writes
  ⟨c.1, s.logBytes + (s.record tx).length, s.liveSize + c.2⟩

def LogMetaStore.compacts (s : LogMetaStore) : Bool :=
  decide (s.logBytes > 2 ^ 20) && decide ((s.logBytes : Int) > 4 * s.liveSize)

def snapshotText (m : Map) : Bytes := encode (snapshotJson m)

def Host.update (h : Host) (tx : Txn) : Host :=
  if tx = [] then { h with acked := h.acked ++ [tx] } else { h with stage := .logging tx }

def Host.advance (h : Host) : Host :=
  match h.stage with
  | .idle => h
  | .logging tx =>
    { h with
      files := { h.files with log := h.files.log.edit (.write (h.store.record tx)) }
      stage := .written tx }
  | .written tx =>
    { h with
      files := { h.files with log := h.files.log.sync }
      store := h.store.commit tx
      stage := .synced tx
      logged := h.logged ++ [tx] }
  | .synced tx =>
    if h.store.compacts then
      { h with files := { h.files with tmp := some [] }, stage := .tmpOpened tx }
    else { h with stage := .idle, acked := h.acked ++ [tx] }
  | .tmpOpened tx =>
    { h with
      files := { h.files with tmp := some (snapshotText h.store.data) }
      stage := .tmpWritten tx }
  | .tmpWritten tx => { h with stage := .tmpSynced tx }
  | .tmpSynced tx =>
    { h with files := { h.files with snapshot := h.files.tmp, tmp := none }, stage := .renamed tx }
  | .renamed tx =>
    { h with
      files := { h.files with log := h.files.log.edit (.truncate 0) }
      stage := .truncated tx }
  | .truncated tx =>
    { h with
      files := { h.files with log := h.files.log.sync }
      store := { h.store with logBytes := 0 }
      stage := .idle
      acked := h.acked ++ [tx]
      logged := [] }

def Stage.pending : Stage → List Txn
  | .idle => []
  | .logging tx | .written tx | .synced tx | .tmpOpened tx | .tmpWritten tx | .tmpSynced tx
  | .renamed tx | .truncated tx => [tx]

def Host.submitted (h : Host) : List Txn := h.acked ++ h.stage.pending

def Host.kept (h : Host) (log : Bytes) : List Txn :=
  match h.stage with
  | .idle => h.acked
  | .logging _ => h.acked
  | .written tx => if log = h.files.log.current then h.acked ++ [tx] else h.acked
  | _ => h.submitted

def Host.keptLog (h : Host) (log : Bytes) : List Txn :=
  match h.stage with
  | .written tx => if log = h.files.log.current then h.logged ++ [tx] else h.logged
  | .truncated _ => if log = [] then [] else h.logged
  | _ => h.logged

structure Crash (f f' : Files) : Prop where
  snapshot : f'.snapshot = f.snapshot
  pending : f'.log.pending = []
  log : f.log.Crash f'.log.synced

def initial : Host :=
  ⟨⟨none, none, ⟨[], [.truncate 0]⟩⟩, ⟨∅, 0, 0⟩, .idle, [], []⟩

inductive Step (allowed : Host → Bytes → Prop) : Host → Host → Prop
  | update (h : Host) (tx : Txn) :
      h.stage = .idle → (∀ w ∈ tx, Valid w.key) → Step allowed h (h.update tx)
  | advance (h : Host) : Step allowed h h.advance
  | reopen (h : Host) (f f' : Files) (s : LogMetaStore) :
      Crash h.files f → allowed h f.log.synced → openLogMetaStore f = some (s, f') →
      Step allowed h ⟨f', s, .idle, h.kept f.log.synced, h.keptLog f.log.synced⟩

def Reach (allowed : Host → Bytes → Prop) : Host → Prop :=
  Relation.ReflTransGen (Step allowed) initial

def left (txs : List Txn) : Map :=
  txs.foldl (fun m tx => (Metastore.commit m (MemTx.run m tx).writes).1) ∅

def ops (txs : List Txn) : List Op := txs.flatten.map Write.op

def text (txs : List Txn) : Bytes := logText (txs.map fun tx => tx.map Write.op)

def ValidTxns (txs : List Txn) : Prop := ∀ tx ∈ txs, ∀ w ∈ tx, Valid w.key

def Rewritten (txs : List Txn) (key : Bytes) : Prop :=
  ∃ w ∈ txs.flatten, w.key = key ∧ ∀ e, w ≠ .append key e

def Absorbs (txs : List Txn) : Prop :=
  ∀ key e, .append key e ∈ txs.flatten → Rewritten txs key

def Host.Harmless (h : Host) (log : Bytes) : Prop :=
  match h.stage with
  | .renamed _ => Absorbs h.logged
  | .truncated _ => log = [] ∨ Absorbs h.logged
  | _ => True

def applyAt (key : Bytes) (v : Option Bytes) (o : Op) : Option Bytes :=
  if o.key = key then
    if o.del then none
    else if o.append then some (appendJSON (v.getD []) o.value)
    else some o.value
  else v

theorem applyOp_get (m : Map) (o : Op) (key : Bytes) : (applyOp m o)[key]? = applyAt key m[key]? o := by
  unfold applyOp applyAt
  split_ifs with hdel hkey happend hkey hkey <;>
    simp_all [Std.ExtTreeMap.getElem?_insert, Std.ExtTreeMap.getElem?_erase]

theorem apply_get (os : List Op) (m : Map) (key : Bytes) :
    (apply m os)[key]? = os.foldl (applyAt key) m[key]? := by
  induction os generalizing m with
  | nil => rfl
  | cons o os ih =>
    rw [List.foldl_cons, ← applyOp_get]
    exact ih (applyOp m o)

theorem foldl_forget {B C : Type} (f : B → C → B) (cs : List C) {c : C} (hc : c ∈ cs)
    (hconst : ∀ a b, f a c = f b c) (a b : B) : cs.foldl f a = cs.foldl f b := by
  induction cs generalizing a b with
  | nil => exact absurd hc (by simp)
  | cons d cs ih =>
    rcases List.mem_cons.mp hc with rfl | hmem
    · rw [List.foldl_cons, List.foldl_cons, hconst a b]
    · exact ih hmem (f a d) (f b d)

theorem applyAt_rewrites {w : Write} {key : Bytes} (hkey : w.key = key)
    (hne : ∀ e, w ≠ .append key e) (a b : Option Bytes) :
    applyAt key a w.op = applyAt key b w.op := by
  subst hkey
  cases w with
  | put key value | delete key => simp [applyAt, Write.op, Write.key]
  | append key elem => exact absurd rfl (hne elem)

theorem foldl_applyAt_absent (txs : List Txn) (key : Bytes) (v : Option Bytes)
    (h : ∀ w ∈ txs.flatten, w.key ≠ key) : (ops txs).foldl (applyAt key) v = v := by
  have hall : ∀ o ∈ ops txs, applyAt key v o = v := by
    intro o ho
    obtain ⟨w, hw, rfl⟩ := List.mem_map.mp ho
    have hk : w.op.key ≠ key := by
      have := h w hw
      cases w <;> exact this
    simp [applyAt, hk]
  generalize ops txs = os at hall
  induction os with
  | nil => rfl
  | cons o os ih =>
    obtain ⟨ho, hos⟩ := List.forall_mem_cons.mp hall
    rw [List.foldl_cons, ho, ih hos]

variable {txs : List Txn}

theorem apply_twice (h : Absorbs txs) (m : Map) : apply (apply m (ops txs)) (ops txs) = apply m (ops txs) := by
  refine Std.ExtTreeMap.ext_getElem? fun key => ?_
  rw [apply_get, apply_get]
  by_cases hkey : ∃ w ∈ txs.flatten, w.key = key
  · have hrewritten : Rewritten txs key := by
      obtain ⟨w, hw, rfl⟩ := hkey
      cases w with
      | append key elem => exact h key elem hw
      | put key value | delete key => exact ⟨_, hw, rfl, by simp⟩
    obtain ⟨w, hw, hk, hne⟩ := hrewritten
    exact foldl_forget _ _ (List.mem_map_of_mem hw) (applyAt_rewrites hk hne) _ _
  · push Not at hkey
    exact foldl_applyAt_absent txs key _ hkey

theorem left_eq_apply (txs : List Txn) : left txs = apply ∅ (ops txs) := by
  have hfold : ∀ m, txs.foldl (fun m tx => (Metastore.commit m (MemTx.run m tx).writes).1) m =
      apply m (ops txs) := by
    intro m
    induction txs generalizing m with
    | nil => rfl
    | cons tx txs ih =>
      rw [List.foldl_cons, ih, commit_eq_apply, ← apply_append]
      simp [ops]
  exact hfold ∅

theorem left_append (txs : List Txn) (tx : Txn) :
    left (txs ++ [tx]) = apply (left txs) (tx.map Write.op) := by
  rw [left_eq_apply, left_eq_apply, ← apply_append]
  simp [ops]

theorem validKeys_ops (h : ValidTxns txs) : ValidKeys (ops txs) := by
  intro o ho
  obtain ⟨w, hw, rfl⟩ := List.mem_map.mp ho
  obtain ⟨tx, htx, hwtx⟩ := List.mem_flatten.mp hw
  have := h tx htx w hwtx
  cases w <;> exact this

theorem validKeys_tx (h : ValidTxns txs) : ∀ os ∈ txs.map (fun tx => tx.map Write.op), ValidKeys os := by
  intro os hos o ho
  obtain ⟨tx, htx, rfl⟩ := List.mem_map.mp hos
  obtain ⟨w, hw, rfl⟩ := List.mem_map.mp ho
  have := h tx htx w hw
  cases w <;> exact this

theorem text_append (txs : List Txn) (tx : Txn) :
    text (txs ++ [tx]) = text txs ++ line (tx.map Write.op) := by
  simp [text, logText]

theorem length_le_text (txs : List Txn) : txs.length ≤ (text txs).length := by
  induction txs with
  | nil => simp
  | cons tx txs ih =>
    simp only [text, logText, List.map_cons, List.flatMap_cons, List.length_append, line,
      List.length_cons] at ih ⊢
    omega

theorem replay_text (h : ValidTxns txs) (m : Map) {torn : Bytes} (ht : (10 : UInt8) ∉ torn) :
    replay ((text txs ++ torn).length + 1) m (text txs ++ torn) = (apply m (ops txs), (text txs).length) := by
  have hlen := length_le_text txs
  have hr := replay_logText (txs.map fun tx => tx.map Write.op) (validKeys_tx h)
    ((text txs ++ torn).length + 1) m torn ht (by simp; omega)
  have hops : (txs.map fun tx => tx.map Write.op).flatten = ops txs := by
    simp [ops, List.map_flatten]
  rwa [hops] at hr

def Replays (snapshot : Option Bytes) (logged durable : List Txn) : Prop :=
  ∃ base, readSnapshot snapshot = some base ∧ ValidMap base ∧ apply base (ops logged) = left durable

def Replaced (snapshot : Option Bytes) (logged durable : List Txn) : Prop :=
  readSnapshot snapshot = some (left durable) ∧ ValidMap (left durable) ∧
    ∃ m, apply m (ops logged) = left durable

def Torn (logged : List Txn) (c : Bytes) : Prop :=
  ∃ torn, (10 : UInt8) ∉ torn ∧ c = text logged ++ torn

structure Tail (log : File UInt8) (logged : List Txn) : Prop where
  current : log.current = text logged
  crash : ∀ c, log.Crash c → Torn logged c

structure Writing (log : File UInt8) (logged : List Txn) (tx : Txn) : Prop where
  current : log.current = text (logged ++ [tx])
  crash : ∀ c, log.Crash c → c = log.current ∨ Torn logged c

structure Clearing (log : File UInt8) (logged : List Txn) : Prop where
  current : log.current = []
  crash : ∀ c, log.Crash c → c = [] ∨ Torn logged c

def Host.durable (h : Host) : List Txn :=
  match h.stage with
  | .idle | .logging _ | .written _ => h.acked
  | _ => h.submitted

def Host.Disk (h : Host) : Prop :=
  match h.stage with
  | .idle | .logging _ => Replays h.files.snapshot h.logged h.acked ∧ Tail h.files.log h.logged
  | .written tx =>
    Replays h.files.snapshot h.logged h.acked ∧ Writing h.files.log h.logged tx
  | .synced _ | .tmpOpened _ =>
    Replays h.files.snapshot h.logged h.submitted ∧ Tail h.files.log h.logged
  | .tmpWritten _ | .tmpSynced _ =>
    (Replays h.files.snapshot h.logged h.submitted ∧ Tail h.files.log h.logged) ∧
      h.files.tmp = some (snapshotText (left h.submitted))
  | .renamed _ => Replaced h.files.snapshot h.logged h.submitted ∧ Tail h.files.log h.logged
  | .truncated _ => Replaced h.files.snapshot h.logged h.submitted ∧ Clearing h.files.log h.logged

structure Sound (h : Host) : Prop where
  logged : ValidTxns h.logged
  pending : ValidTxns h.stage.pending
  data : h.store.data = left h.durable
  disk : h.Disk

theorem torn_self (logged : List Txn) : Torn logged (text logged) := ⟨[], by simp, by simp⟩

variable {log : File UInt8} {logged : List Txn}

theorem tail_sync (h : log.current = text logged) : Tail log.sync logged := by
  refine ⟨h, fun c hc => ?_⟩
  rw [crash_sync hc, h]
  exact torn_self logged

theorem newline_not_mem_line_take (os : List Op) {k : Nat} (hk : k < (line os).length) :
    (10 : UInt8) ∉ (line os).take k := by
  have hlen : k ≤ (encode (recordJson os)).length := by
    simpa [line, Nat.lt_succ_iff] using hk
  rw [line, List.take_append_of_le_length hlen]
  exact fun hmem => newline_not_mem_encode _ (List.mem_of_mem_take hmem)

theorem writing_edit (h : Tail log logged) (tx : Txn) :
    Writing (log.edit (.write (line (tx.map Write.op)))) logged tx := by
  have hcur : (log.edit (.write (line (tx.map Write.op)))).current = text (logged ++ [tx]) := by
    rw [File.current_edit, Edit.run, h.current, text_append]
  refine ⟨hcur, fun c hc => ?_⟩
  rcases crash_write hc with hold | ⟨k, rfl⟩
  · exact Or.inr (h.crash c hold)
  · by_cases hk : k < (line (tx.map Write.op)).length
    · exact Or.inr ⟨_, newline_not_mem_line_take _ hk, by rw [h.current]⟩
    · rw [File.current_edit, Edit.run, List.take_of_length_le (Nat.le_of_not_lt hk)]
      exact Or.inl rfl

theorem clearing_edit (h : Tail log logged) : Clearing (log.edit (.truncate 0)) logged := by
  refine ⟨by simp [Edit.run], fun c hc => ?_⟩
  rcases survives_append hc with hold | hcut
  · exact Or.inr (h.crash c hold)
  · rcases survives_truncate hcut with rfl | rfl
    · exact Or.inr (h.crash _ (crash_current log))
    · exact Or.inl (by simp)

variable {snapshot : Option Bytes} {durable : List Txn} {tx : Txn}

theorem replays_append
    (h : Replays snapshot logged durable) : Replays snapshot (logged ++ [tx]) (durable ++ [tx]) := by
  obtain ⟨base, hread, hvalid, happly⟩ := h
  refine ⟨base, hread, hvalid, ?_⟩
  have hops : ops (logged ++ [tx]) = ops logged ++ tx.map Write.op := by simp [ops]
  rw [hops, apply_append, happly, left_append]

theorem validMap_of_replays
    (hv : ValidTxns logged) (h : Replays snapshot logged durable) : ValidMap (left durable) := by
  obtain ⟨base, -, hvalid, happly⟩ := h
  rw [← happly]
  exact validMap_apply _ hvalid (validKeys_ops hv)

theorem replaced_of_replays (hv : ValidTxns logged) (h : Replays snapshot logged durable) :
    Replaced (some (snapshotText (left durable))) logged durable := by
  have hvalid := validMap_of_replays hv h
  obtain ⟨base, -, -, happly⟩ := h
  exact ⟨decodeSnapshot_text hvalid, hvalid, base, happly⟩

theorem replays_of_replaced (h : Replaced snapshot logged durable) (ha : Absorbs logged) :
    Replays snapshot logged durable := by
  obtain ⟨hread, hvalid, m, happly⟩ := h
  refine ⟨_, hread, hvalid, ?_⟩
  rw [← happly]
  exact apply_twice ha m

theorem replays_nil_of_replaced (h : Replaced snapshot logged durable) : Replays snapshot [] durable :=
  ⟨_, h.1, h.2.1, rfl⟩

variable {f : Files}

theorem open_text {base : Map} {torn : Bytes} (hv : ValidTxns logged) (hread : readSnapshot f.snapshot = some base)
    (ht : (10 : UInt8) ∉ torn) (hc : f.log.current = text logged ++ torn) :
    openLogMetaStore f =
      some (⟨apply base (ops logged), (text logged).length, recountLive (apply base (ops logged))⟩,
        { f with log := f.log.edit (.truncate (text logged).length) }) := by
  simp only [openLogMetaStore, hread, hc, replay_text hv base ht, Option.map_some]

theorem open_torn (hv : ValidTxns logged) (hr : Replays f.snapshot logged durable) (hp : f.log.pending = [])
    (ht : Torn logged f.log.synced) :
    ∃ s f', openLogMetaStore f = some (s, f') ∧ s.data = left durable ∧
      f'.snapshot = f.snapshot ∧ Tail f'.log logged := by
  obtain ⟨base, hread, -, happly⟩ := hr
  obtain ⟨torn, hnl, hc⟩ := ht
  have hcur : f.log.current = text logged ++ torn := by simp [File.current, hp, hc]
  refine ⟨_, _, open_text hv hread hnl hcur, happly, rfl, ?_, fun c hcrash => ?_⟩
  · rw [File.current_edit, hcur]
    simp [Edit.run]
  · rw [File.Crash, File.edit, hp, List.nil_append] at hcrash
    rcases survives_truncate hcrash with rfl | rfl
    · exact ⟨torn, hnl, hc⟩
    · rw [hc, List.take_left]
      exact torn_self logged

theorem sound_initial : Sound initial := by
  refine ⟨by simp [initial, ValidTxns], by simp [initial, ValidTxns, Stage.pending], rfl,
    ⟨∅, rfl, by simp [ValidMap], rfl⟩, rfl, fun c hc => ?_⟩
  rcases survives_truncate hc with rfl | rfl
  all_goals exact torn_self []

theorem left_append_nil (txs : List Txn) : left (txs ++ [[]]) = left txs := by
  rw [left_append]
  rfl

variable {h : Host}

theorem sound_update (hs : Sound h) (hi : h.stage = .idle) (hv : ∀ w ∈ tx, Valid w.key) : Sound (h.update tx) := by
  obtain ⟨hlogged, -, hdata, hdisk⟩ := hs
  simp only [Host.durable, Host.Disk, hi] at hdata hdisk
  unfold Host.update
  split_ifs with htx
  · subst htx
    refine ⟨hlogged, by simp [hi, Stage.pending, ValidTxns], ?_, ?_⟩
    · simpa [Host.durable, hi, left_append_nil] using hdata
    · simpa [Host.Disk, hi, Replays, left_append_nil] using hdisk
  · exact ⟨hlogged, by simpa [Stage.pending, ValidTxns] using hv, hdata, hdisk⟩

theorem commit_data {s : LogMetaStore} (h : s.data = left durable)
    (tx : Txn) : (s.commit tx).data = left (durable ++ [tx]) := by
  rw [LogMetaStore.commit, commit_eq_apply, h, left_append]

theorem sound_advance (hs : Sound h) : Sound h.advance := by
  obtain ⟨hlogged, hpending, hdata, hdisk⟩ := hs
  obtain ⟨files, store, stage, acked, logged⟩ := h
  cases stage with
  | idle | tmpWritten tx => exact ⟨hlogged, hpending, hdata, hdisk⟩
  | logging tx =>
    have hrecord : store.record tx = line (tx.map Write.op) := by
      rw [LogMetaStore.record, MemTx.ordered_run]
    have hwriting := writing_edit hdisk.2 tx
    rw [← hrecord] at hwriting
    exact ⟨hlogged, hpending, hdata, hdisk.1, hwriting⟩
  | written tx =>
    refine ⟨?_, hpending, commit_data hdata tx, replays_append hdisk.1, tail_sync hdisk.2.current⟩
    intro t ht
    rcases List.mem_append.mp ht with hold | hnew
    · exact hlogged t hold
    · exact hpending t hnew
  | synced tx =>
    simp only [Host.advance]
    split_ifs
    · exact ⟨hlogged, hpending, hdata, hdisk⟩
    · exact ⟨hlogged, by simp [Stage.pending, ValidTxns], hdata, hdisk⟩
  | tmpOpened tx =>
    refine ⟨hlogged, hpending, hdata, hdisk, ?_⟩
    exact congrArg (fun m => some (snapshotText m)) hdata
  | tmpSynced tx =>
    obtain ⟨⟨hreplays, htail⟩, htmp⟩ := hdisk
    refine ⟨hlogged, hpending, hdata, ?_, htail⟩
    have hreplaced := replaced_of_replays hlogged hreplays
    rw [← htmp] at hreplaced
    exact hreplaced
  | renamed tx => exact ⟨hlogged, hpending, hdata, hdisk.1, clearing_edit hdisk.2⟩
  | truncated tx =>
    refine ⟨by simp [Host.advance, ValidTxns], by simp [Host.advance, Stage.pending, ValidTxns],
      hdata, replays_nil_of_replaced hdisk.1, ?_⟩
    exact tail_sync hdisk.2.current

theorem kept_replays (hs : Sound h) {c : Bytes} (hc : h.files.log.Crash c) (hh : h.Harmless c) :
    ValidTxns (h.keptLog c) ∧ Replays h.files.snapshot (h.keptLog c) (h.kept c) ∧ Torn (h.keptLog c) c := by
  obtain ⟨hlogged, hpending, -, hdisk⟩ := hs
  obtain ⟨files, store, stage, acked, logged⟩ := h
  cases stage with
  | idle | logging tx | synced tx | tmpOpened tx => exact ⟨hlogged, hdisk.1, hdisk.2.crash c hc⟩
  | written tx =>
    simp only [Host.kept, Host.keptLog]
    by_cases hcur : c = files.log.current
    · simp only [hcur, if_true]
      refine ⟨?_, replays_append hdisk.1, ?_⟩
      · intro t ht
        rcases List.mem_append.mp ht with hold | hnew
        · exact hlogged t hold
        · exact hpending t hnew
      · rw [hdisk.2.current]
        exact torn_self _
    · simp only [hcur, if_false]
      exact ⟨hlogged, hdisk.1, (hdisk.2.crash c hc).resolve_left hcur⟩
  | tmpWritten tx | tmpSynced tx => exact ⟨hlogged, hdisk.1.1, hdisk.1.2.crash c hc⟩
  | renamed tx => exact ⟨hlogged, replays_of_replaced hdisk.1 hh, hdisk.2.crash c hc⟩
  | truncated tx =>
    simp only [Host.kept, Host.keptLog]
    by_cases hnil : c = []
    · simp only [hnil, if_true]
      exact ⟨by simp [ValidTxns], replays_nil_of_replaced hdisk.1, torn_self []⟩
    · simp only [hnil, if_false]
      exact ⟨hlogged, replays_of_replaced hdisk.1 (hh.resolve_left hnil),
        (hdisk.2.crash c hc).resolve_left hnil⟩

theorem kept_between (h : Host) (c : Bytes) : h.acked <+: h.kept c ∧ h.kept c <+: h.submitted := by
  unfold Host.kept Host.submitted
  split
  · simp
  · simp
  · split_ifs <;> simp_all [Stage.pending]
  · simp

theorem sound_reopen (hs : Sound h) {f' : Files} {s : LogMetaStore}
    (hc : Crash h.files f) (hh : h.Harmless f.log.synced)
    (ho : openLogMetaStore f = some (s, f')) :
    Sound ⟨f', s, .idle, h.kept f.log.synced, h.keptLog f.log.synced⟩ := by
  obtain ⟨hv, hr, ht⟩ := kept_replays hs hc.log hh
  obtain ⟨s', g, hopen, hdata, hsnap, htail⟩ := open_torn hv (hc.snapshot ▸ hr) hc.pending ht
  rw [hopen] at ho
  cases ho
  refine ⟨hv, by simp [Stage.pending, ValidTxns], hdata, ?_, htail⟩
  rwa [hsnap, hc.snapshot]

theorem sound_reach (hr : Reach Host.Harmless h) : Sound h := by
  induction hr with
  | refl => exact sound_initial
  | tail _ hstep ih =>
    cases hstep with
    | update tx hi hv => exact sound_update ih hi hv
    | advance => exact sound_advance ih
    | reopen f f' s hc hh ho => exact sound_reopen ih hc hh ho

theorem reopened_store_is_acknowledged_prefix {h : Host} (hr : Reach Host.Harmless h) {f : Files}
    (hc : Crash h.files f) (hh : h.Harmless f.log.synced) :
    ∃ txs s f', openLogMetaStore f = some (s, f') ∧ s.data = left txs ∧
      h.acked <+: txs ∧ txs <+: h.submitted := by
  obtain ⟨hv, hreplays, ht⟩ := kept_replays (sound_reach hr) hc.log hh
  obtain ⟨s, f', hopen, hdata, -⟩ := open_torn hv (hc.snapshot ▸ hreplays) hc.pending ht
  exact ⟨_, s, f', hopen, hdata, kept_between h f.log.synced⟩

def oversized (cleared : Bool) (v : Bytes) : Txn :=
  .put [107] v :: .delete [107] :: ((if cleared then [.put [97] []] else []) ++ [.append [97] [49]])

variable (cleared : Bool) (v : Bytes)

theorem oversized_writes : (MemTx.run ∅ (oversized cleared v)).writes =
      (Std.ExtTreeMap.insert ∅ [107] none).insert [97] (some [91, 49, 93]) := by
  have hjson : appendJSON [] [49] = [91, 49, 93] := by decide
  refine Std.ExtTreeMap.ext_getElem? fun key => ?_
  cases cleared <;>
    simp only [MemTx.run, oversized, Bool.false_eq_true, if_false, if_true, List.nil_append, List.cons_append,
      List.foldl_cons, List.foldl_nil, MemTx.write, MemTx.append, MemTx.get, MemTx.put, MemTx.delete] <;>
    simp [Std.ExtTreeMap.getElem?_insert, hjson] <;> grind

theorem oversized_live : (Metastore.commit ∅ (MemTx.run ∅ (oversized cleared v)).writes).2 = 4 := by
  rw [oversized_writes]
  decide

theorem oversized_record (hv : v.length = 786432) :
    2 ^ 20 < (line ((oversized cleared v).map Write.op)).length := by
  have hne : v ≠ [] := by
    rintro rfl
    simp at hv
  have hbase : (Base64.encode v).length = 2 ^ 20 := by
    rw [Base64.length_encode, hv]
    norm_num
  have hquote := length_le_quote (Base64.encode v)
  simp only [line, recordJson, opsJson, oversized, List.map_cons, Write.op, opJson, hne, if_false, encode, encodeItems_cons,
    encodeMembers, List.length_append, List.length_cons, List.cons_append, List.nil_append, Bool.false_eq_true]
  omega

def oversizedHost (cleared : Bool) (v : Bytes) : Host := Host.advance^[6] (initial.update (oversized cleared v))

theorem oversizedHost_reach (allowed : Host → Bytes → Prop) : Reach allowed (oversizedHost cleared v) := by
  have hkeys : ∀ w ∈ oversized cleared v, Valid w.key := by
    cases cleared <;> simp [oversized, Write.key] <;> decide
  have hrun : ∀ n, Reach allowed (Host.advance^[n] (initial.update (oversized cleared v))) := by
    intro n
    induction n with
    | zero => exact .single (Step.update initial _ rfl hkeys)
    | succ n ih =>
      rw [Function.iterate_succ_apply']
      exact ih.tail (Step.advance _)
  exact hrun 6

theorem advance_logging (hs : h.stage = .logging tx) :
    (Host.advance^[2] h).stage = .synced tx ∧ (Host.advance^[2] h).store = h.store.commit tx ∧
      (Host.advance^[2] h).acked = h.acked ∧ (Host.advance^[2] h).logged = h.logged ++ [tx] := by
  obtain ⟨files, store, stage, acked, logged⟩ := h
  subst hs
  exact ⟨rfl, rfl, rfl, rfl⟩

theorem advance_compacting (hs : h.stage = .synced tx) (hc : h.store.compacts = true) :
    (Host.advance^[4] h).stage = .renamed tx ∧ (Host.advance^[4] h).acked = h.acked ∧
      (Host.advance^[4] h).logged = h.logged := by
  obtain ⟨files, store, stage, acked, logged⟩ := h
  subst hs
  have hopen : Host.advance ⟨files, store, .synced tx, acked, logged⟩ =
      ⟨{ files with tmp := some [] }, store, .tmpOpened tx, acked, logged⟩ := if_pos hc
  rw [Function.iterate_succ_apply, hopen]
  exact ⟨rfl, rfl, rfl⟩

theorem oversizedHost_renamed (hv : v.length = 786432) :
    (oversizedHost cleared v).stage = .renamed (oversized cleared v) ∧ (oversizedHost cleared v).acked = [] ∧
      (oversizedHost cleared v).logged = [oversized cleared v] := by
  have hsize := oversized_record cleared v hv
  have hcompacts : (initial.store.commit (oversized cleared v)).compacts = true := by
    have hbytes : (initial.store.commit (oversized cleared v)).logBytes =
        (line ((oversized cleared v).map Write.op)).length := by
      simp [LogMetaStore.commit, LogMetaStore.record, MemTx.ordered_run, initial]
    have hlive : (initial.store.commit (oversized cleared v)).liveSize = 4 := by
      simpa [LogMetaStore.commit, initial] using oversized_live cleared v
    simp only [LogMetaStore.compacts, hbytes, hlive, Bool.and_eq_true, decide_eq_true_eq]
    omega
  have hlogging : (initial.update (oversized cleared v)).stage = .logging (oversized cleared v) := rfl
  obtain ⟨hstage, hstore, hacked, hlogged⟩ := advance_logging hlogging
  have hc : (Host.advance^[2] (initial.update (oversized cleared v))).store.compacts = true := by
    rw [hstore]
    exact hcompacts
  obtain ⟨hstage', hacked', hlogged'⟩ := advance_compacting hstage hc
  rw [oversizedHost, Function.iterate_add_apply Host.advance 4 2]
  exact ⟨hstage', hacked'.trans hacked, hlogged'.trans hlogged⟩

theorem left_oversized : (left [oversized false v])[([97] : Bytes)]? = some [91, 49, 93] := by
  rw [left_eq_apply, apply_get]
  simp [ops, oversized, Write.op, applyAt]
  decide

theorem replayed_oversized : (apply (left [oversized false v]) (ops [oversized false v]))[([97] : Bytes)]? =
      some [91, 49, 44, 49, 93] := by
  rw [apply_get, left_oversized]
  simp [ops, oversized, Write.op, applyAt]
  decide

theorem reopen_renamed (hs : Sound h) (hstage : h.stage = .renamed tx) :
    ∃ f s f', Crash h.files f ∧ openLogMetaStore f = some (s, f') ∧
      s.data = apply (left h.submitted) (ops h.logged) := by
  have hdisk := hs.disk
  simp only [Host.Disk, hstage] at hdisk
  obtain ⟨⟨hread, -, -⟩, htail⟩ := hdisk
  have htext : File.current ⟨h.files.log.current, []⟩ = text h.logged ++ [] := by
    simpa [File.current] using htail.current
  exact ⟨⟨h.files.snapshot, none, ⟨h.files.log.current, []⟩⟩, _, _,
    ⟨rfl, rfl, crash_current _⟩, open_text hs.logged hread (by simp) htext, rfl⟩

theorem reopened_store_is_acknowledged_prefix_of_compaction : ∃ v f,
    (oversizedHost true v).stage = .renamed (oversized true v) ∧ Crash (oversizedHost true v).files f ∧
      ∃ txs s f', openLogMetaStore f = some (s, f') ∧ s.data = left txs ∧
        (oversizedHost true v).acked <+: txs ∧ txs <+: (oversizedHost true v).submitted := by
  obtain ⟨v, hv⟩ : ∃ v : Bytes, v.length = 786432 := ⟨List.replicate 786432 0, List.length_replicate⟩
  obtain ⟨hstage, -, hlogged⟩ := oversizedHost_renamed true v hv
  have hcrash : Crash (oversizedHost true v).files
      ⟨(oversizedHost true v).files.snapshot, none, ⟨(oversizedHost true v).files.log.current, []⟩⟩ :=
    ⟨rfl, rfl, crash_current _⟩
  have hharmless : Absorbs (oversizedHost true v).logged := by
    rw [hlogged]
    intro key e hmem
    simp only [oversized, if_true, List.flatten_cons, List.flatten_nil, List.append_nil, List.cons_append, List.nil_append,
      List.mem_cons, Write.append.injEq, reduceCtorEq, List.not_mem_nil, or_false, false_or] at hmem
    exact ⟨.put [97] [], by simp [oversized], hmem.1.symm, by simp⟩
  refine ⟨v, _, hstage, hcrash,
    reopened_store_is_acknowledged_prefix (oversizedHost_reach true v _) hcrash ?_⟩
  simpa only [Host.Harmless, hstage] using hharmless

theorem reopened_store_replays_append_twice : ¬ ∀ h : Host, Reach (fun _ _ => True) h → ∀ f, Crash h.files f →
      ∃ txs s f', openLogMetaStore f = some (s, f') ∧ s.data = left txs ∧
        h.acked <+: txs ∧ txs <+: h.submitted := by
  intro hall
  obtain ⟨v, hv⟩ : ∃ v : Bytes, v.length = 786432 := ⟨List.replicate 786432 0, List.length_replicate⟩
  obtain ⟨hstage, hacked, hlogged⟩ := oversizedHost_renamed false v hv
  have hreach := fun allowed => oversizedHost_reach false v allowed
  generalize oversizedHost false v = h at hstage hacked hlogged hreach
  obtain ⟨f, s, f', hc, hopen, hdata⟩ := reopen_renamed (sound_reach (hreach _)) hstage
  obtain ⟨txs, s', f'', hopen', hdata', -, hsub⟩ := hall h (hreach _) f hc
  rw [hopen] at hopen'
  cases hopen'
  simp only [Host.submitted, hstage, hacked, hlogged, Stage.pending, List.nil_append] at hsub hdata
  have hget := replayed_oversized v
  rw [← hdata, hdata'] at hget
  have hcases : txs = [] ∨ txs = [oversized false v] := by
    cases txs with
    | nil => exact Or.inl rfl
    | cons t txs => simpa [List.cons_prefix_cons] using hsub
  rcases hcases with rfl | rfl
  · simp [left] at hget
  · rw [left_oversized] at hget
    exact absurd hget (by decide)

end CloudBurrow.Recovery
