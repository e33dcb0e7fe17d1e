import CloudBurrow.Storage.Recovery

namespace CloudBurrow.Recovery

open Utf8 JsonText Metastore LogRecord AppendFile

inductive Outcome where
  | succeeds
  | writeFails (size : Nat)
  | syncFails
  | resyncFails

def Host.finish (h : Host) (tx : Txn) : Host := Host.advance^[8] (h.update tx)

def Host.attempt (h : Host) (tx : Txn) : Outcome → Host
  | .succeeds => h.finish tx
  | .writeFails size =>
    if tx = [] then h.finish tx
    else { h with files := { h.files with log := h.files.log.edit (.write ((h.store.record tx).take size)) } }
  | .syncFails => if tx = [] then h.finish tx else { (h.update tx).advance with stage := .idle }
  | .resyncFails =>
    let last := Host.advance^[7] (h.update tx)
    match last.stage with
    | .truncated _ => { last with store := { last.store with logBytes := 0 }, stage := .idle, logged := [] }
    | _ => h.finish tx

inductive Attempted (ok : Host → Txn → Outcome → Prop) : Host → Host → Prop
  | update (h : Host) (tx : Txn) (o : Outcome) : ok h tx o → Attempted ok h (h.attempt tx o)
  | reopen (h : Host) (f f' : Files) (s : LogMetaStore) :
      Crash h.files f → openLogMetaStore f = some (s, f') → Attempted ok h ⟨f', s, .idle, h.acked, h.logged⟩

structure Unharmed (h : Host) : Prop where
  reads : h.store.data = left h.acked
  recovered : ∀ f, Crash h.files f → ∃ s f', openLogMetaStore f = some (s, f') ∧ s.data = left h.acked

def Host.Tidy (h : Host) (tx : Txn) (o : Outcome) : Prop :=
  tx = [] ∨ (∀ w ∈ tx, Valid w.key) ∧ h.files.log.current.length = h.store.logBytes ∧
    match o with
    | .succeeds => True
    | .writeFails size => size < (h.store.record tx).length
    | _ => False

def Host.Metered (h : Host) : Prop := h.store.logBytes = (text h.logged).length

theorem record_eq (s : LogMetaStore) (tx : Txn) : s.record tx = line (tx.map Write.op) := by
  rw [LogMetaStore.record, MemTx.ordered_run]

variable {h : Host}

theorem metered_update (hm : h.Metered) (tx : Txn) : (h.update tx).Metered := by
  unfold Host.update
  split_ifs <;> exact hm

theorem metered_advance (hm : h.Metered) : h.advance.Metered := by
  obtain ⟨files, store, stage, acked, logged⟩ := h
  cases stage with
  | written tx =>
    change store.logBytes + (store.record tx).length = (text (logged ++ [tx])).length
    rw [text_append, List.length_append, record_eq, hm]
  | synced tx =>
    simp only [Host.advance]
    split_ifs <;> exact hm
  | truncated tx => rfl
  | idle | logging tx | tmpOpened tx | tmpWritten tx | tmpSynced tx | renamed tx => exact hm

theorem metered_finish (hm : h.Metered) (tx : Txn) : (h.finish tx).Metered := by
  have hrun : ∀ n, (Host.advance^[n] (h.update tx)).Metered := by
    intro n
    induction n with
    | zero => exact metered_update hm tx
    | succ n ih =>
      rw [Function.iterate_succ_apply']
      exact metered_advance ih
  exact hrun 8

variable {tx : Txn}

theorem sound_finish (hs : Sound h) (hi : h.stage = .idle) (hv : ∀ w ∈ tx, Valid w.key) : Sound (h.finish tx) := by
  have hrun : ∀ n, Sound (Host.advance^[n] (h.update tx)) := by
    intro n
    induction n with
    | zero => exact sound_update hs hi hv
    | succ n ih =>
      rw [Function.iterate_succ_apply']
      exact sound_advance ih
  exact hrun 8

theorem finish_idle (hi : h.stage = .idle) (tx : Txn) :
    (h.finish tx).stage = .idle ∧ (h.finish tx).acked = h.acked ++ [tx] := by
  obtain ⟨files, store, stage, acked, logged⟩ := h
  obtain rfl : stage = .idle := hi
  unfold Host.finish Host.update
  split_ifs with htx
  · exact ⟨rfl, rfl⟩
  · cases hc : (store.commit tx).compacts with
    | false | true => simp [Host.advance, hc]

structure Calm (h : Host) : Prop where
  idle : h.stage = .idle
  logged : ValidTxns h.logged
  data : h.store.data = left h.acked
  replays : Replays h.files.snapshot h.logged h.acked
  metered : h.Metered
  current : Torn h.logged h.files.log.current
  crash : ∀ c, h.files.log.Crash c → Torn h.logged c

theorem Calm.of_sound (hs : Sound h) (hi : h.stage = .idle) (hm : h.Metered) : Calm h := by
  obtain ⟨hlogged, -, hdata, hdisk⟩ := hs
  simp only [Host.durable, Host.Disk, hi] at hdata hdisk
  refine ⟨hi, hlogged, hdata, hdisk.1, hm, ?_, hdisk.2.crash⟩
  rw [hdisk.2.current]
  exact torn_self _

theorem Calm.sound (hc : Calm h) (hlen : h.files.log.current.length = h.store.logBytes) : Sound h := by
  obtain ⟨torn, -, hcur⟩ := hc.current
  have hnil : torn = [] := by
    rw [hcur, List.length_append, hc.metered] at hlen
    exact List.length_eq_zero_iff.mp (by omega)
  have htail : Tail h.files.log h.logged := ⟨by rw [hcur, hnil, List.append_nil], hc.crash⟩
  refine ⟨hc.logged, by simp [hc.idle, Stage.pending, ValidTxns], ?_, ?_⟩
  · simpa only [Host.durable, hc.idle] using hc.data
  · simpa only [Host.Disk, hc.idle] using ⟨hc.replays, htail⟩

theorem Calm.finish (hc : Calm h) (hs : Sound h) (hv : ∀ w ∈ tx, Valid w.key) : Calm (h.finish tx) :=
  .of_sound (sound_finish hs hc.idle hv) (finish_idle hc.idle tx).1 (metered_finish hc.metered tx)

theorem finish_nil (hi : h.stage = .idle) : h.finish [] = { h with acked := h.acked ++ [[]] } := by
  obtain ⟨files, store, stage, acked, logged⟩ := h
  obtain rfl : stage = .idle := hi
  rfl

theorem Calm.finish_nil (hc : Calm h) : Calm (h.finish []) := by
  rw [Recovery.finish_nil hc.idle]
  refine ⟨hc.idle, hc.logged, ?_, ?_, hc.metered, hc.current, hc.crash⟩
  · rw [left_append_nil]
    exact hc.data
  · simpa only [Replays, left_append_nil] using hc.replays

theorem Calm.writeFails (hc : Calm h) {size : Nat}
    (hlen : h.files.log.current.length = h.store.logBytes) (hsize : size < (h.store.record tx).length) :
    Calm { h with files := { h.files with log := h.files.log.edit (.write ((h.store.record tx).take size)) } } := by
  obtain ⟨-, -, -, hdisk⟩ := hc.sound hlen
  simp only [Host.Disk, hc.idle] at hdisk
  have htorn : Torn h.logged (h.files.log.current ++ (h.store.record tx).take size) := by
    rw [record_eq] at hsize ⊢
    rw [hdisk.2.current]
    exact ⟨_, newline_not_mem_line_take _ hsize, rfl⟩
  refine ⟨hc.idle, hc.logged, hc.data, hc.replays, hc.metered, ?_, fun c hcrash => ?_⟩
  · rw [File.current_edit]
    exact htorn
  · rcases crash_write hcrash with hold | ⟨k, rfl⟩
    · exact hc.crash c hold
    · rw [List.take_take]
      obtain ⟨torn, hnl, hcur⟩ := htorn
      rw [hdisk.2.current] at hcur ⊢
      refine ⟨_, fun hmem => hnl ?_, rfl⟩
      rw [← List.append_cancel_left hcur]
      exact List.mem_of_mem_take (by rwa [← List.take_take] at hmem)

theorem Calm.attempt (hc : Calm h) {o : Outcome} (ht : h.Tidy tx o) : Calm (h.attempt tx o) := by
  rcases ht with rfl | ⟨hv, hlen, ho⟩
  · cases o with
    | resyncFails =>
      have hlast : (Host.advance^[7] (h.update [])).stage = .idle := by
        obtain ⟨files, store, stage, acked, logged⟩ := h
        obtain rfl : stage = .idle := hc.idle
        rfl
      simp only [Host.attempt, hlast]
      exact hc.finish_nil
    | succeeds | writeFails size | syncFails => exact hc.finish_nil
  · cases o with
    | succeeds => exact hc.finish (hc.sound hlen) hv
    | writeFails size =>
      simp only [Host.attempt]
      split_ifs
      · exact hc.finish (hc.sound hlen) hv
      · exact hc.writeFails hlen ho
    | syncFails => exact ho.elim
    | resyncFails => exact ho.elim

theorem Calm.open (hc : Calm h) {f : Files} (hcrash : Crash h.files f) :
    ∃ s f', openLogMetaStore f = some (s, f') ∧ Calm ⟨f', s, .idle, h.acked, h.logged⟩ := by
  obtain ⟨base, hread, hvalid, happly⟩ := hc.replays
  obtain ⟨torn, hnl, hcur⟩ := hc.crash _ hcrash.log
  have hlog : f.log.current = text h.logged ++ torn := by
    rw [← hcur, File.current, hcrash.pending]
    rfl
  have hsnap : readSnapshot f.snapshot = some base := by rw [hcrash.snapshot, hread]
  refine ⟨_, _, open_text hc.logged hsnap hnl hlog, rfl, hc.logged, happly, ⟨base, hsnap, hvalid, happly⟩, rfl,
    ?_, fun c hc' => ?_⟩
  · rw [File.current_edit, hlog]
    simp only [Edit.run, List.take_left]
    exact torn_self _
  · rw [File.Crash, File.edit, hcrash.pending, List.nil_append] at hc'
    rcases survives_truncate hc' with rfl | rfl
    · exact ⟨torn, hnl, hcur⟩
    · rw [hcur, List.take_left]
      exact torn_self _

theorem calm_initial : Calm initial :=
  .of_sound sound_initial rfl rfl

theorem calm_of_run (hr : Relation.ReflTransGen (Attempted Host.Tidy) initial h) : Calm h := by
  induction hr with
  | refl => exact calm_initial
  | tail _ hstep ih =>
    cases hstep with
    | update tx o ht => exact ih.attempt ht
    | reopen f f' s hcrash hopen =>
      obtain ⟨s', f'', hopen', hcalm⟩ := ih.open hcrash
      rw [hopen] at hopen'
      cases hopen'
      exact hcalm

theorem failed_write_harms_nothing {h : Host} (hr : Relation.ReflTransGen (Attempted Host.Tidy) initial h) :
    Unharmed h := by
  have hc := calm_of_run hr
  refine ⟨hc.data, fun f hcrash => ?_⟩
  obtain ⟨s, f', hopen, hcalm⟩ := hc.open hcrash
  exact ⟨s, f', hopen, hcalm.data⟩

theorem failed_write_harms_nothing_of_first_update :
    Unharmed (initial.attempt [.put [97] [49]] (.writeFails 3)) := by
  refine failed_write_harms_nothing (Relation.ReflTransGen.single (.update _ _ _ (.inr ⟨?_, rfl, ?_⟩)))
  · decide
  · change 3 < (initial.store.record [.put [97] [49]]).length
    rw [record_eq]
    decide +kernel

def tornHost : Host := (initial.attempt [.put [97] [49]] (.writeFails 5)).attempt [.put [98] [50]] .succeeds

def unsyncedHost : Host := initial.attempt [.put [97] [49]] .syncFails

def Host.closed (h : Host) : Files := ⟨h.files.snapshot, none, ⟨h.files.log.current, []⟩⟩

theorem crash_closed (h : Host) : Crash h.files h.closed := ⟨rfl, rfl, crash_current _⟩

theorem not_unharmed (entries : List (Bytes × Bytes))
    (hopen : (openLogMetaStore h.closed).map (fun r => r.1.data.toList) = some entries)
    (hne : (left h.acked).toList ≠ entries) : ¬ Unharmed h := by
  intro hu
  obtain ⟨s, f', hs, hdata⟩ := hu.recovered _ (crash_closed h)
  rw [hs, Option.map_some, hdata, Option.some.injEq] at hopen
  exact hne hopen

theorem failed_write_harms :
    (Relation.ReflTransGen (Attempted fun _ tx _ => ∀ w ∈ tx, Valid w.key) initial tornHost ∧
      ¬ Unharmed tornHost) ∧
    (Relation.ReflTransGen (Attempted fun _ tx _ => ∀ w ∈ tx, Valid w.key) initial unsyncedHost ∧
      ¬ Unharmed unsyncedHost) := by
  refine ⟨⟨?_, not_unharmed [] (by decide +kernel) (by decide +kernel)⟩,
    ?_, not_unharmed [([97], [49])] (by decide +kernel) (by decide +kernel)⟩
  · exact (Relation.ReflTransGen.single (.update _ _ _ (by decide))).tail (.update _ _ _ (by decide))
  · exact Relation.ReflTransGen.single (.update _ _ _ (by decide))

end CloudBurrow.Recovery
