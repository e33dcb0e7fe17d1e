import CloudBurrow.Scheduler.Runner

namespace CloudBurrow.Scheduler

open Utf8 Threads Transaction.Txn
open Tasks (Time)

namespace Store

variable {s s' : Store} {j cur : Job} {name n : Bytes}

theorem under_keyed (h : s.under n = some j) : key j.name = key n := s.keyed (key n) j h

theorem under_congr (h : key name = key n) : s.under name = s.under n := by
  rw [under, under, h]

theorem under_put (s : Store) (j : Job) (n : Bytes) :
    (s.put j).under n = if key j.name = key n then some j else s.under n := by
  simp [under, put, Std.ExtTreeMap.getElem?_insert]

theorem under_without (s : Store) (name n : Bytes) :
    (s.without name).under n = if key name = key n then none else s.under n := by
  simp [under, without, Std.ExtTreeMap.getElem?_erase]

theorem get_ok (h : s.get name = .ok j) : s.under name = some j := by
  unfold get at h
  split at h
  · cases h
  · next hj =>
      cases h
      exact hj

theorem mem_list (h : j ∈ s.list) : s.under j.name = some j := by
  rw [list, List.mem_insertionSort, List.mem_map] at h
  obtain ⟨⟨k, j'⟩, hmem, rfl⟩ := h
  have hget : s.jobs[k]? = some j' := Std.ExtTreeMap.mem_toList_iff_getElem?_eq_some.mp hmem
  rw [under, s.keyed k j' hget, hget]

theorem update_ok {fn : Job → Except Refusal Job} (h : s.update name fn = .ok s') :
    ∃ cur j, s.under name = some cur ∧ fn cur = .ok j ∧ s' = s.put j := by
  obtain ⟨cur, hcur, h⟩ := except_bind_ok h
  obtain ⟨j, hj, h⟩ := except_bind_ok h
  cases h
  exact ⟨cur, j, get_ok hcur, hj, rfl⟩

theorem create_ok (h : s.create j = .ok s') : s.under j.name = none ∧ s'.created = s.created + 1 ∧
      ∀ n, s'.under n = if key j.name = key n then some { j with serial := s.created } else s.under n := by
  unfold create at h
  split at h
  · cases h
  · next hnone =>
      cases h
      exact ⟨hnone, rfl, under_put s { j with serial := s.created }⟩

theorem delete_ok (h : s.delete name = .ok s') : (∃ j, s.under name = some j) ∧ s' = s.without name := by
  obtain ⟨j, hj, h⟩ := except_bind_ok h
  cases h
  exact ⟨⟨j, get_ok hj⟩, rfl⟩

end Store

theorem mask_name {job merged merged' : JobMessage} {path : Bytes}
    (h : mask job merged path = .ok merged') : merged'.name = merged.name := by
  unfold mask at h
  split_ifs at h <;> cases h <;> rfl

theorem masks_name {job merged merged' : JobMessage} {paths : List Bytes}
    (h : paths.foldlM (mask job) merged = .ok merged') : merged'.name = merged.name := by
  induction paths generalizing merged with
  | nil =>
    cases h
    rfl
  | cons path paths ih =>
    obtain ⟨next, hnext, h⟩ := except_bind_ok h
    exact (ih h).trans (mask_name hnext)

section Written

variable {cron : Cron} {now : Time} {cur j : Job}

theorem updated_ok {job : JobMessage} {paths : List Bytes} (h : updated cron job paths now cur = .ok j) :
    j.name = cur.name ∧ j.serial = cur.serial ∧ j.state = cur.state ∧
      j.scheduleTime = cron.next j.schedule j.timeZone now ∧
      ∃ merged, mergedWith job paths cur = .ok merged ∧ j.schedule = merged.schedule ∧
        j.timeZone = merged.zone := by
  obtain ⟨merged, hmerged, h⟩ := except_bind_ok h
  obtain ⟨next, hnext, h⟩ := except_bind_ok h
  obtain ⟨t, ht, h⟩ := except_bind_ok h
  have hname : merged.name = cur.name := masks_name hmerged
  obtain ⟨hnext, hschedule, hzone, -⟩ := fromProto_ok hnext
  cases h
  exact ⟨hnext.trans hname, rfl, rfl, nextRun_ok ht, merged, hmerged, hschedule, hzone⟩

theorem resumed_ok (h : resumed cron now cur = .ok j) : (cur.state = .enabled ∧ j = cur) ∨
      (cur.state ≠ .enabled ∧
        j = { cur with state := .enabled, scheduleTime := cron.next cur.schedule cur.timeZone now }) := by
  unfold resumed at h
  split_ifs at h with hstate
  · cases h
    exact .inl ⟨hstate, rfl⟩
  · obtain ⟨t, ht, h⟩ := except_bind_ok h
    cases h
    exact .inr ⟨hstate, by rw [nextRun_ok ht]⟩

end Written

inductive Rewrites (cron : Cron) (input : Input) : Thread → Job → Job → Prop
  | updated (job : JobMessage) (paths : List Bytes) (cur j : Job)
      (h : updated cron job paths input.now cur = .ok j) (hname : key job.name = key cur.name) :
      Rewrites cron input (.call (.updateJob (some job) paths)) cur j
  | paused (name : Bytes) (cur : Job) (hname : key name = key cur.name) :
      Rewrites cron input (.call (.pauseJob name)) cur { cur with state := .paused }
  | resumed (name : Bytes) (cur j : Job) (h : resumed cron input.now cur = .ok j)
      (hname : key name = key cur.name) :
      Rewrites cron input (.call (.resumeJob name)) cur j
  | advanced (now : Time) (copy cur : Job) (rest : List Job) (hdue : copy.due now = true)
      (hname : key copy.name = key cur.name) :
      Rewrites cron input (.tick (.ready now (copy :: rest))) cur
        { cur with scheduleTime := cron.next copy.schedule copy.timeZone now }
  | recorded (d : Delivery) (cur j : Job) (hphase : d.phase = .out)
      (h : Delivery.recorded input.now (attempt input d.job) cur = .ok j)
      (hname : key d.job.name = key cur.name) :
      Rewrites cron input (.delivery d) cur j

theorem Rewrites.same {cron : Cron} {input : Input} {l : Thread} {cur j : Job}
    (h : Rewrites cron input l cur j) : j.name = cur.name ∧ j.serial = cur.serial := by
  cases h with
  | updated job paths _ _ h _ => exact ⟨(updated_ok h).1, (updated_ok h).2.1⟩
  | paused name _ _ | advanced now copy _ rest _ _ => exact ⟨rfl, rfl⟩
  | resumed name _ _ h _ =>
    rcases resumed_ok h with ⟨-, rfl⟩ | ⟨-, rfl⟩
    all_goals exact ⟨rfl, rfl⟩
  | recorded d _ _ _ h _ =>
    cases h
    exact ⟨rfl, rfl⟩

inductive Writes (cron : Cron) (input : Input) (l : Thread) (s s' : Store) : Prop
  | kept (h : s' = s)
  | created (req : CreateJobRequest) (j : Job) (hl : l = .call (.createJob req))
      (hj : checkCreate cron req input.now = .ok j) (hnone : s.under j.name = none)
      (hcreated : s'.created = s.created + 1)
      (h : ∀ n, s'.under n =
        if key j.name = key n then some { j with serial := s.created } else s.under n)
  | rewrote (cur j : Job) (hcur : s.under cur.name = some cur) (hj : Rewrites cron input l cur j)
      (h : s' = s.put j)
  | deleted (name : Bytes) (hl : l = .call (.deleteJob name)) (h : s' = s.without name)

theorem Writes.new {cron : Cron} {input : Input} {l : Thread} {s s' : Store} {n : Bytes} {cur : Job}
    (h : Writes cron input l s s') (hcur : s'.under n = some cur) : s.under n = some cur ∨
      (∃ req j, l = .call (.createJob req) ∧ checkCreate cron req input.now = .ok j ∧ key j.name = key n ∧
        cur = { j with serial := s.created } ∧ s'.created = s.created + 1) ∨
      ∃ old, s.under n = some old ∧ s.under old.name = some old ∧ Rewrites cron input l old cur := by
  cases h with
  | kept h => exact .inl (h ▸ hcur)
  | created req j hl hj hnone hcreated h =>
    rw [h] at hcur
    split_ifs at hcur with heq
    · exact .inr (.inl ⟨req, j, hl, hj, heq, (Option.some.inj hcur).symm, hcreated⟩)
    · exact .inl hcur
  | rewrote old j hold hj h =>
    rw [h, Store.under_put] at hcur
    split_ifs at hcur with heq
    · cases hcur
      exact .inr (.inr ⟨old, Store.under_congr (hj.same.1 ▸ heq) ▸ hold, hold, hj⟩)
    · exact .inl hcur
  | deleted name hl h =>
    rw [h, Store.under_without] at hcur
    split_ifs at hcur
    exact .inl hcur

theorem Writes.created_le {cron : Cron} {input : Input} {l : Thread} {s s' : Store}
    (h : Writes cron input l s s') : s.created ≤ s'.created := by
  cases h with
  | kept h => rw [h]
  | created req j hl hj hnone hcreated h => omega
  | rewrote old j hold hj h => rw [h]; exact le_rfl
  | deleted name hl h => rw [h]; exact le_rfl

theorem settle_store (s : Server) (r : Except Refusal Store) :
    (settle s r).store = s.store ∨ ∃ store, r = .ok store ∧ (settle s r).store = store := by
  cases r with
  | error e => exact .inl rfl
  | ok store => exact .inr ⟨store, rfl, rfl⟩

theorem Writes.update {cron : Cron} {input : Input} {l : Thread} {s s' : Store} {name : Bytes}
    {fn : Job → Except Refusal Job} (h : s.update name fn = .ok s')
    (hfn : ∀ cur j, key name = key cur.name → fn cur = .ok j → Rewrites cron input l cur j) :
    Writes cron input l s s' := by
  obtain ⟨cur, j, hcur, hj, hput⟩ := Store.update_ok h
  have hkey := Store.under_keyed hcur
  refine .rewrote cur j ?_ (hfn cur j hkey.symm hj) hput
  rw [Store.under_congr hkey, hcur]

theorem Call.writes (cron : Cron) (input : Input) (c : Call) (s : Server) :
    Writes cron input (.call c) s.store (settle s (c.apply cron s.store input.now)).store := by
  rcases settle_store s (c.apply cron s.store input.now) with heq | ⟨store, hok, heq⟩
  · exact .kept heq
  rw [heq]
  cases c with
  | createJob req =>
    obtain ⟨j, hj, h⟩ := except_bind_ok hok
    obtain ⟨hnone, hcreated, hunder⟩ := Store.create_ok h
    exact .created req j rfl hj hnone hcreated hunder
  | updateJob job paths =>
    cases job with
    | none => cases hok
    | some job =>
      exact .update hok fun cur j hname hj => .updated job paths cur j hj hname
  | pauseJob name =>
    refine .update hok fun cur j hname hj => ?_
    cases hj
    exact .paused name cur hname
  | resumeJob name => exact .update hok fun cur j hname hj => .resumed name cur j hj hname
  | deleteJob name => exact .deleted name rfl (Store.delete_ok hok).2

theorem fire_store (j : Job) (t : Time) (s : Server) : (fire j t s).2.store = s.store := by
  unfold fire
  split_ifs <;> rfl

theorem ready_cases (cron : Cron) (input : Input) (s : Server) (now : Time) (j : Job) (rest : List Job) :
    Tick.advance cron input s (.ready now (j :: rest)) = ([.tick (.ready now rest)], s) ∨
    ∃ store, j.due now = true ∧
      s.store.update j.name (advanced (cron.next j.schedule j.timeZone now)) = .ok store ∧
      Tick.advance cron input s (.ready now (j :: rest)) =
        ([.tick (.firing now j rest)], { s with store := store }) := by
  cases hdue : j.due now with
  | false => exact .inl (by simp [Tick.advance, hdue])
  | true =>
    cases hnext : nextRun cron j.schedule j.timeZone now with
    | error e => exact .inl (by simp [Tick.advance, hdue, hnext])
    | ok next =>
      have hn := nextRun_ok hnext
      cases hstore : s.store.update j.name (advanced next) with
      | error e => exact .inl (by simp [Tick.advance, hdue, hnext, hstore])
      | ok store =>
        refine .inr ⟨store, rfl, by rw [← hn, hstore], ?_⟩
        simp [Tick.advance, hdue, hnext, hstore]

theorem Tick.writes (cron : Cron) (input : Input) (t : Tick) (s : Server) :
    Writes cron input (.tick t) s.store (t.advance cron input s).2.store := by
  cases t with
  | listing => exact .kept rfl
  | firing now j rest => exact .kept (fire_store j _ s)
  | ready now jobs =>
    cases jobs with
    | nil => exact .kept rfl
    | cons j rest =>
      rcases ready_cases cron input s now j rest with heq | ⟨store, hdue, hstore, heq⟩
      · rw [heq]
        exact .kept rfl
      · rw [heq]
        refine .update hstore fun cur j' hname hj => ?_
        cases hj
        exact .advanced now j cur rest hdue hname

theorem Delivery.writes (cron : Cron) (input : Input) (d : Delivery) (s : Server) :
    Writes cron input (.delivery d) s.store (d.advance input s).2.store := by
  cases hphase : d.phase with
  | starting | ended => exact .kept (by simp [Delivery.advance, hphase])
  | waiting =>
    refine .kept ?_
    simp only [Delivery.advance, hphase]
    split_ifs <;> rfl
  | out =>
    have hstore : (d.advance input s).2.store =
        (settle s (s.store.update d.job.name (recorded input.now (Scheduler.attempt input d.job)))).store := by
      simp [Delivery.advance, hphase]
    rw [hstore]
    rcases settle_store s (s.store.update d.job.name
      (recorded input.now (Scheduler.attempt input d.job))) with heq | ⟨store, hok, heq⟩
    · exact .kept heq
    · rw [heq]
      exact .update hok fun cur j hname hj => .recorded d cur j hphase hj hname

theorem runJob_cases (cron : Cron) (input : Input) (name : Bytes) (s : Server) :
    Thread.advance cron input (.runJob name) s = ([], s) ∨
    ∃ j, s.store.under name = some j ∧ Thread.advance cron input (.runJob name) s = ([.launching j], s) := by
  cases h : s.store.get name with
  | error e => exact .inl (by simp [Thread.advance, h])
  | ok j => exact .inr ⟨j, Store.get_ok h, by simp [Thread.advance, h]⟩

theorem advance_writes (cron : Cron) (input : Input) (l : Thread) (s : Server) :
    Writes cron input l s.store (l.advance cron input s).2.store := by
  cases l with
  | call c => exact c.writes cron input s
  | tick t => exact t.writes cron input s
  | delivery d => exact d.writes cron input s
  | launching j => exact .kept (fire_store j _ s)
  | runJob name =>
    rcases runJob_cases cron input name s with heq | ⟨j, -, heq⟩
    all_goals
      rw [heq]
      exact .kept rfl

inductive Spawns (input : Input) (s : Server) : Thread → Thread → Prop
  | accepted (name : Bytes) (j : Job) (h : s.store.under j.name = some j) :
      Spawns input s (.runJob name) (.launching j)
  | listed : Spawns input s (.tick .listing) (.tick (.ready input.now s.store.list))
  | skipped (now : Time) (j : Job) (rest : List Job) :
      Spawns input s (.tick (.ready now (j :: rest))) (.tick (.ready now rest))
  | due (now : Time) (j : Job) (rest : List Job) (h : j.due now = true) :
      Spawns input s (.tick (.ready now (j :: rest))) (.tick (.firing now j rest))
  | fired (now : Time) (j : Job) (rest : List Job) :
      Spawns input s (.tick (.firing now j rest)) (.tick (.ready now rest))
  | started (l : Thread) (d : Delivery)
      (h : l = .launching d.job ∨ ∃ now rest, l = .tick (.firing now d.job rest)) :
      Spawns input s l (.delivery d)
  | moved (d d' : Delivery) (hjob : d'.job = d.job) (hphase : d.phase ≠ .ended) :
      Spawns input s (.delivery d) (.delivery d')

theorem fire_spawns {j : Job} {t : Time} {input : Input} {s : Server} {l l' : Thread}
    (hl : l = .launching j ∨ ∃ now rest, l = .tick (.firing now j rest)) (h : l' ∈ (fire j t s).1) :
    Spawns input s l l' := by
  unfold fire at h
  split_ifs at h
  · cases h
  · rw [List.mem_singleton.mp h]
    exact .started l _ hl

theorem advance_spawns {cron : Cron} {input : Input} {l l' : Thread} {s : Server}
    (h : l' ∈ (l.advance cron input s).1) : Spawns input s l l' := by
  cases l with
  | call c => cases h
  | launching j => exact fire_spawns (.inl rfl) h
  | runJob name =>
    rcases runJob_cases cron input name s with heq | ⟨j, hj, heq⟩ <;> rw [heq] at h
    · cases h
    · rw [List.mem_singleton.mp h]
      exact .accepted name j (by rw [Store.under_congr (Store.under_keyed hj), hj])
  | delivery d =>
    replace h : l' ∈ (d.advance input s).1 := h
    cases hphase : d.phase with
    | starting | out =>
      rw [Delivery.advance, hphase] at h
      rw [List.mem_singleton.mp h]
      exact .moved d _ rfl (by simp [hphase])
    | waiting =>
      rw [Delivery.advance, hphase] at h
      dsimp only at h
      split_ifs at h <;> rw [List.mem_singleton.mp h] <;> exact .moved d _ rfl (by simp [hphase])
    | ended =>
      rw [Delivery.advance, hphase] at h
      cases h
  | tick t =>
    replace h : l' ∈ (t.advance cron input s).1 := h
    cases t with
    | listing =>
      rw [List.mem_singleton.mp h]
      exact .listed
    | firing now j rest =>
      rcases List.mem_cons.mp h with rfl | h
      · exact .fired now j rest
      · exact fire_spawns (.inr ⟨now, rest, rfl⟩) h
    | ready now jobs =>
      cases jobs with
      | nil => cases h
      | cons j rest =>
        rcases ready_cases cron input s now j rest with heq | ⟨store, hdue, -, heq⟩ <;> rw [heq] at h <;>
          rw [List.mem_singleton.mp h]
        · exact .skipped now j rest
        · exact .due now j rest hdue

end CloudBurrow.Scheduler
