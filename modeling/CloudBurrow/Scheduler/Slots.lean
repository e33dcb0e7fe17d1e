import CloudBurrow.Scheduler.Configuration

namespace CloudBurrow.Scheduler

open Utf8 Threads
open Tasks (Time)

theorem Store.list_nodup (s : Store) : (s.list.map fun j => key j.name).Nodup := by
  have hperm : (s.list.map fun j => key j.name).Perm ((s.jobs.toList.map Prod.snd).map fun j => key j.name) :=
    (List.perm_insertionSort _ _).map _
  have hkeys : (s.jobs.toList.map Prod.snd).map (fun j => key j.name) = s.jobs.keys := by
    rw [← Std.ExtTreeMap.map_fst_toList_eq_keys, List.map_map]
    refine List.map_congr_left fun e he => ?_
    exact s.keyed e.1 e.2 (Std.ExtTreeMap.mem_toList_iff_getElem?_eq_some.mp he)
  rw [hperm.nodup_iff, hkeys]
  exact Std.ExtTreeMap.nodup_keys

section Ticks

def ticks (ls : List Thread) : Nat := (ls.filter Thread.isTick).length

@[simp] theorem ticks_append (ls ls' : List Thread) : ticks (ls ++ ls') = ticks ls + ticks ls' := by
  simp [ticks]

@[simp] theorem ticks_cons (l : Thread) (ls : List Thread) : ticks (l :: ls) = ticks [l] + ticks ls :=
  ticks_append [l] ls

theorem ticks_eq_zero {ls : List Thread} (h : ∀ l ∈ ls, l.isTick = false) : ticks ls = 0 := by
  simp only [ticks, List.length_eq_zero_iff, List.filter_eq_nil_iff]
  intro l hl
  simp [h l hl]

theorem no_tick {ls : List Thread} (h : ticks ls = 0) {l : Thread} (hl : l ∈ ls) : l.isTick = false := by
  simp only [ticks, List.length_eq_zero_iff, List.filter_eq_nil_iff] at h
  simpa using h l hl

theorem fire_ticks (j : Job) (t : Time) (s : Server) : ticks (fire j t s).1 = 0 := by
  unfold fire
  split_ifs <;> rfl

theorem delivery_ticks (input : Input) (d : Delivery) (s : Server) : ticks (d.advance input s).1 = 0 := by
  cases hphase : d.phase with
  | waiting =>
    rw [Delivery.advance, hphase]
    dsimp only
    split_ifs <;> rfl
  | starting | out | ended => rw [Delivery.advance, hphase]; rfl

theorem advance_ticks (cron : Cron) (input : Input) (l : Thread) (s : Server) :
    ticks (l.advance cron input s).1 ≤ ticks [l] := by
  cases l with
  | call c => exact Nat.zero_le _
  | runJob name =>
    rcases runJob_cases cron input name s with heq | ⟨j, -, heq⟩ <;> rw [heq] <;> exact le_rfl
  | launching j => exact (fire_ticks j input.now s).le
  | delivery d => exact (delivery_ticks input d s).le
  | tick t =>
    cases t with
    | listing => exact le_rfl
    | firing now j rest =>
      change ticks (.tick (.ready now rest) :: (fire j j.scheduleTime s).1) ≤ 1
      rw [ticks_cons, fire_ticks]
      exact le_rfl
    | ready now jobs =>
      cases jobs with
      | nil => exact Nat.zero_le _
      | cons j rest =>
        change ticks (Tick.advance cron input s (.ready now (j :: rest))).1 ≤ 1
        rcases ready_cases cron input s now j rest with heq | ⟨store, -, -, heq⟩ <;> rw [heq] <;> exact le_rfl

end Ticks

structure Firing where
  job : Job
  tick : Time
deriving DecidableEq

def Firing.slot (f : Firing) : Time := f.job.scheduleTime

def Thread.fires (n : Bytes) (inflight : Finset Bytes) : Thread → List Firing
  | .tick (.firing now j _) => if key j.name = key n ∧ j.name ∉ inflight then [⟨j, now⟩] else []
  | _ => []

def Untouched (cron : Cron) (n : Bytes) (input : Input) (_ : World) : Thread → Prop
  | .call (.createJob req) => ∀ p ∈ req.job, key p.name = key n → Recurs cron p.schedule p.zone input.now
  | .call (.updateJob job _) => ∀ p ∈ job, key p.name ≠ key n
  | .call (.pauseJob name) => key name ≠ key n
  | .call (.resumeJob name) => key name ≠ key n
  | .call (.deleteJob name) => key name ≠ key n
  | .tick (.ready now (j :: _)) => key j.name = key n → j.due now = true →
      Recurs cron j.schedule j.timeZone now
  | _ => True

instance (cron : Cron) (n : Bytes) (input : Input) (w : World) : DecidablePred (Untouched cron n input w)
  | .call (.createJob _) => inferInstanceAs (Decidable (∀ p ∈ _, _ → _))
  | .call (.updateJob _ _) => inferInstanceAs (Decidable (∀ p ∈ _, ¬ _))
  | .call (.pauseJob _) | .call (.resumeJob _) | .call (.deleteJob _) => inferInstanceAs (Decidable (¬ _))
  | .tick (.ready _ (_ :: _)) => inferInstanceAs (Decidable (_ → _ → _))
  | .tick (.ready _ []) | .tick .listing | .tick (.firing _ _ _) | .runJob _ | .launching _
  | .delivery _ => .isTrue trivial

structure Current (cur j : Job) : Prop where
  schedule : cur.schedule = j.schedule
  timeZone : cur.timeZone = j.timeZone
  scheduleTime : cur.scheduleTime = j.scheduleTime

def Passed (cur j : Job) : Prop := j.scheduleTime < cur.scheduleTime

structure Slot (cron : Cron) (now : Time) (fired : List Firing) (j : Job) : Prop where
  matching : cron.matching j.schedule j.timeZone j.scheduleTime
  due : j.scheduleTime ≤ now
  later : ∀ f ∈ fired, f.slot < j.scheduleTime

def Thread.Timely (cron : Cron) (n : Bytes) (s : Store) (fired : List Firing) : Thread → Prop
  | .tick (.ready _ jobs) => (jobs.map fun j => key j.name).Nodup ∧
      ∀ j ∈ jobs, key j.name = key n → Backed Current s j
  | .tick (.firing now j rest) => ((j :: rest).map fun j => key j.name).Nodup ∧
      (∀ j' ∈ rest, key j'.name = key n → Backed Current s j') ∧
      (key j.name = key n → Backed Passed s j ∧ Slot cron now fired j)
  | _ => True

structure StoredTimely (cron : Cron) (n : Bytes) (s : Store) (fired : List Firing) : Prop where
  slot : ∀ cur, s.under n = some cur → cron.matching cur.schedule cur.timeZone cur.scheduleTime
  later : ∀ cur, s.under n = some cur → ∀ f ∈ fired, f.slot < cur.scheduleTime
  none_fired : s.under n = none → fired = []

structure Timely (cron : Cron) (n : Bytes) (w : World) (fired : List Firing) : Prop where
  single : ticks w.threads ≤ 1
  stored : StoredTimely cron n w.shared.store fired
  threads : ∀ l ∈ w.threads, l.Timely cron n w.shared.store fired
  matching : ∀ f ∈ fired, cron.matching f.job.schedule f.job.timeZone f.slot ∧ f.slot ≤ f.tick
  once : (fired.map Firing.slot).Nodup

theorem Thread.timely_of_not_tick {cron : Cron} {n : Bytes} {s : Store} {fired : List Firing} {l : Thread}
    (h : l.isTick = false) : l.Timely cron n s fired := by
  cases l with
  | tick t => cases h
  | call c | runJob name | launching j | delivery d => trivial

section Steps

variable {cron : Cron} {n : Bytes} {input : Input} {w : World} {l : Thread} {s s' : Store}
  {fired : List Firing}

theorem Untouched.keeps (hrule : Untouched cron n input w l) (hl : l.isTick = false)
    {cur j : Job} (hwrites : Rewrites cron input l cur j) (hkey : key cur.name = key n) : Current cur j := by
  cases hwrites with
  | updated p paths _ _ _ hname => exact absurd (hname.trans hkey) (hrule p rfl)
  | paused name _ hname | resumed name _ _ _ hname => exact absurd (hname.trans hkey) hrule
  | advanced now copy _ rest _ _ => cases hl
  | recorded d _ _ _ hok _ =>
    cases hok
    exact ⟨rfl, rfl, rfl⟩

theorem Untouched.backed (hrule : Untouched cron n input w l) (hl : l.isTick = false)
    (hwrites : Writes cron input l s s') {R : Job → Job → Prop} {j : Job}
    (hR : ∀ cur cur', Current cur cur' → R cur j → R cur' j) (hkey : key j.name = key n)
    (h : Backed R s j) : Backed R s' j := by
  refine hwrites.backed (fun cur j' hrewrite hname hcur => ?_) (fun name hdelete => ?_) h
  · exact hR cur j' (hrule.keeps hl hrewrite (hname.trans hkey)) hcur
  · subst hdelete
    exact fun heq => hrule (heq.trans hkey)

theorem Untouched.stored (hrule : Untouched cron n input w l) (hl : l.isTick = false)
    (hwrites : Writes cron input l s s') (h : StoredTimely cron n s fired) :
    StoredTimely cron n s' fired := by
  cases hwrites with
  | kept heq => exact heq ▸ h
  | created req j hcall hj hnone hcreated hunder =>
    subst hcall
    by_cases hkey : key j.name = key n
    · have hfired : fired = [] := h.none_fired (Store.under_congr hkey ▸ hnone)
      obtain ⟨p, hp, hname, hschedule, hzone, -, htime⟩ := checkCreate_ok hj
      have hrecurs := hrule p hp (hname ▸ hkey)
      refine ⟨fun cur hcur => ?_, by simp [hfired], fun _ => hfired⟩
      rw [hunder, if_pos hkey] at hcur
      cases hcur
      change cron.matching j.schedule j.timeZone j.scheduleTime
      rw [htime, hschedule, hzone]
      exact cron.next_matching _ _ _ hrecurs
    · have hsame : s'.under n = s.under n := by rw [hunder, if_neg hkey]
      exact ⟨hsame ▸ h.slot, hsame ▸ h.later, hsame ▸ h.none_fired⟩
  | rewrote cur j hcur hj heq =>
    subst heq
    by_cases hkey : key j.name = key n
    · have hold : key cur.name = key n := hj.same.1 ▸ hkey
      have hcur' : s.under n = some cur := Store.under_congr hold ▸ hcur
      have hsame := hrule.keeps hl hj hold
      have hunder : (s.put j).under n = some j := by rw [Store.under_put, if_pos hkey]
      refine ⟨fun cur' hcur'' => ?_, fun cur' hcur'' => ?_, fun hnone => ?_⟩
      · rw [hunder] at hcur''
        cases hcur''
        rw [← hsame.schedule, ← hsame.timeZone, ← hsame.scheduleTime]
        exact h.slot cur hcur'
      · rw [hunder] at hcur''
        cases hcur''
        rw [← hsame.scheduleTime]
        exact h.later cur hcur'
      · rw [hunder] at hnone
        cases hnone
    · have hsame : (s.put j).under n = s.under n := by rw [Store.under_put, if_neg hkey]
      exact ⟨hsame ▸ h.slot, hsame ▸ h.later, hsame ▸ h.none_fired⟩
  | deleted name hcall heq =>
    subst hcall heq
    have hsame : (s.without name).under n = s.under n := by rw [Store.under_without, if_neg hrule]
    exact ⟨hsame ▸ h.slot, hsame ▸ h.later, hsame ▸ h.none_fired⟩

theorem Untouched.thread (hrule : Untouched cron n input w l) (hl : l.isTick = false)
    (hwrites : Writes cron input l s s') {l' : Thread} (h : l'.Timely cron n s fired) :
    l'.Timely cron n s' fired := by
  have hcurrent : ∀ j, key j.name = key n → Backed Current s j → Backed Current s' j := by
    intro j hkey hj
    refine hrule.backed hl hwrites (fun cur cur' hsame hcur => ?_) hkey hj
    exact ⟨hsame.schedule ▸ hcur.schedule, hsame.timeZone ▸ hcur.timeZone,
      hsame.scheduleTime ▸ hcur.scheduleTime⟩
  have hpassed : ∀ j, key j.name = key n → Backed Passed s j → Backed Passed s' j := by
    intro j hkey hj
    refine hrule.backed hl hwrites (fun cur cur' hsame hcur => ?_) hkey hj
    change j.scheduleTime < cur'.scheduleTime
    rw [← hsame.scheduleTime]
    exact hcur
  cases l' with
  | tick t =>
    cases t with
    | listing => trivial
    | ready now jobs => exact ⟨h.1, fun j hj hkey => hcurrent j hkey (h.2 j hj hkey)⟩
    | firing now j rest =>
      exact ⟨h.1, fun j' hj' hkey => hcurrent j' hkey (h.2.1 j' hj' hkey),
        fun hkey => ⟨hpassed j hkey (h.2.2 hkey).1, (h.2.2 hkey).2⟩⟩
  | call c | runJob name | launching j | delivery d => trivial

theorem Timely.ready {s : Server} {now : Time} {j : Job} {rest : List Job}
    (hstored : StoredTimely cron n s.store fired)
    (hthread : (Thread.tick (.ready now (j :: rest))).Timely cron n s.store fired)
    (hrule : Untouched cron n input w (.tick (.ready now (j :: rest)))) :
    StoredTimely cron n (Tick.advance cron input s (.ready now (j :: rest))).2.store fired ∧
      ∀ l ∈ (Tick.advance cron input s (.ready now (j :: rest))).1,
        l.Timely cron n (Tick.advance cron input s (.ready now (j :: rest))).2.store fired := by
  obtain ⟨hnodup, hcopies⟩ := hthread
  have hrest : (rest.map fun j => key j.name).Nodup := (List.nodup_cons.mp hnodup).2
  rcases ready_cases cron input s now j rest with heq | ⟨store, hdue, hupdate, heq⟩
  · rw [heq]
    refine ⟨hstored, fun l hl => ?_⟩
    rw [List.mem_singleton.mp hl]
    exact ⟨hrest, fun j' hj' => hcopies j' (List.mem_cons_of_mem _ hj')⟩
  rw [heq]
  obtain ⟨cur, j₁, hcur, hj₁, rfl⟩ := Store.update_ok hupdate
  cases hj₁
  have hname : key cur.name = key j.name := Store.under_keyed hcur
  have hput : ∀ m, (s.store.put { cur with scheduleTime := cron.next j.schedule j.timeZone now }).under m =
      if key j.name = key m then some { cur with scheduleTime := cron.next j.schedule j.timeZone now }
      else s.store.under m := by
    intro m
    rw [Store.under_put]
    change (if key cur.name = key m then _ else _) = _
    rw [hname]
  -- the rest of the list is of other keys than the job being advanced
  have hothers : ∀ j' ∈ rest, key j'.name = key n → Backed Current
      (s.store.put { cur with scheduleTime := cron.next j.schedule j.timeZone now }) j' := by
    intro j' hj' hkey
    obtain ⟨cur', hcur', hR⟩ := hcopies j' (List.mem_cons_of_mem _ hj') hkey
    have hne : key j.name ≠ key j'.name := by
      intro heq
      exact (List.nodup_cons.mp hnodup).1 (List.mem_map.mpr ⟨j', hj', heq.symm⟩)
    exact ⟨cur', by rw [hput, if_neg hne, hcur'], hR⟩
  by_cases hkey : key j.name = key n
  · obtain ⟨cur', hcur', hcurrent⟩ := hcopies j List.mem_cons_self hkey
    rw [hcur] at hcur'
    cases hcur'
    have hrecurs := hrule hkey hdue
    have hstill : s.store.under n = some cur := Store.under_congr hkey ▸ hcur
    have hpast : j.scheduleTime ≤ now := by
      simp only [Job.due, Bool.and_eq_true, decide_eq_true_eq] at hdue
      exact hdue.2
    have hafter : j.scheduleTime < cron.next j.schedule j.timeZone now :=
      lt_of_le_of_lt hpast (cron.next_after _ _ _ hrecurs)
    have hslot : Slot cron now fired j := by
      refine ⟨?_, hpast, fun f hf => ?_⟩
      · rw [← hcurrent.schedule, ← hcurrent.timeZone, ← hcurrent.scheduleTime]
        exact hstored.slot cur hstill
      · rw [← hcurrent.scheduleTime]
        exact hstored.later cur hstill f hf
    refine ⟨⟨fun cur' hcur' => ?_, fun cur' hcur' f hf => ?_, fun hnone => ?_⟩, fun l hl => ?_⟩
    · rw [hput, if_pos hkey] at hcur'
      cases hcur'
      change cron.matching cur.schedule cur.timeZone _
      rw [hcurrent.schedule, hcurrent.timeZone]
      exact cron.next_matching _ _ _ hrecurs
    · rw [hput, if_pos hkey] at hcur'
      cases hcur'
      exact (hslot.later f hf).trans hafter
    · rw [hput, if_pos hkey] at hnone
      cases hnone
    · rw [List.mem_singleton.mp hl]
      refine ⟨hnodup, hothers, fun _ => ⟨⟨_, (hput j.name).trans (if_pos rfl), ?_⟩, hslot⟩⟩
      exact hafter
  · have hsame : (s.store.put { cur with scheduleTime := cron.next j.schedule j.timeZone now }).under n =
        s.store.under n := by rw [hput, if_neg hkey]
    refine ⟨⟨hsame ▸ hstored.slot, hsame ▸ hstored.later, hsame ▸ hstored.none_fired⟩, fun l hl => ?_⟩
    rw [List.mem_singleton.mp hl]
    exact ⟨hnodup, hothers, fun h => absurd h hkey⟩

theorem fire_timely {s : Store} (j : Job) (t : Time) (srv : Server) {l : Thread}
    (hl : l ∈ (fire j t srv).1) : l.Timely cron n s fired :=
  Thread.timely_of_not_tick (no_tick (fire_ticks j t srv) hl)

theorem Timely.fire {s : Store} {now : Time} {j : Job} {rest : List Job} {f : List Firing}
    (hstored : StoredTimely cron n s fired)
    (hthread : (Thread.tick (.firing now j rest)).Timely cron n s fired)
    (hmatching : ∀ f ∈ fired, cron.matching f.job.schedule f.job.timeZone f.slot ∧ f.slot ≤ f.tick)
    (honce : (fired.map Firing.slot).Nodup)
    (hf : f = [] ∨ f = [⟨j, now⟩] ∧ key j.name = key n) :
    StoredTimely cron n s (fired ++ f) ∧
      (∀ f' ∈ fired ++ f, cron.matching f'.job.schedule f'.job.timeZone f'.slot ∧ f'.slot ≤ f'.tick) ∧
      ((fired ++ f).map Firing.slot).Nodup := by
  rcases hf with rfl | ⟨rfl, hkey⟩
  · rw [List.append_nil]
    exact ⟨hstored, hmatching, honce⟩
  obtain ⟨⟨cur, hcur, hpassed⟩, hslot⟩ := hthread.2.2 hkey
  have hstill : s.under n = some cur := Store.under_congr hkey ▸ hcur
  refine ⟨⟨hstored.slot, fun cur' hcur' f' hf' => ?_, fun hnone => ?_⟩, fun f' hf' => ?_, ?_⟩
  · rw [hstill] at hcur'
    cases hcur'
    rcases List.mem_append.mp hf' with hf' | hf'
    · exact hstored.later cur hstill f' hf'
    · rw [List.mem_singleton.mp hf']
      exact hpassed
  · rw [hstill] at hnone
    cases hnone
  · rcases List.mem_append.mp hf' with hf' | hf'
    · exact hmatching f' hf'
    · rw [List.mem_singleton.mp hf']
      exact ⟨hslot.matching, hslot.due⟩
  · rw [List.map_append, List.nodup_append']
    refine ⟨honce, by simp, fun t ht ht' => ?_⟩
    obtain ⟨f', hf', rfl⟩ := List.mem_map.mp ht
    have hlater := hslot.later f' hf'
    rw [List.mem_singleton.mp ht'] at hlater
    exact lt_irrefl _ hlater

theorem Timely.tick {s : Server} {left right : List Thread} {t : Tick}
    (hw : Timely cron n ⟨s, left ++ .tick t :: right⟩ fired)
    (hrule : Untouched cron n input w (.tick t)) :
    Timely cron n ⟨(t.advance cron input s).2, left ++ (t.advance cron input s).1 ++ right⟩
      (fired ++ (Thread.tick t).fires n s.inflight) := by
  have hsingle : ticks (left ++ Thread.tick t :: right) ≤ 1 := hw.single
  have hone : ticks [Thread.tick t] = 1 := rfl
  rw [ticks_append, ticks_cons, hone] at hsingle
  have hothers : ∀ l ∈ left ++ right, l.isTick = false := by
    intro l hl
    rcases List.mem_append.mp hl with hl | hl
    all_goals exact no_tick (by omega) hl
  have hnext : ticks (t.advance cron input s).1 ≤ 1 := advance_ticks cron input (.tick t) s
  have hcount : ticks (left ++ (t.advance cron input s).1 ++ right) ≤ 1 := by
    rw [ticks_append, ticks_append]
    omega
  have hself := hw.threads (.tick t) (by simp)
  have hrest : ∀ (s' : Store) (fired' : List Firing) (ls : List Thread),
      (∀ l ∈ ls, l.Timely cron n s' fired') → ∀ l ∈ left ++ ls ++ right, l.Timely cron n s' fired' := by
    intro s' fired' ls hls l hl
    rcases Program.mem_replaced hl with hl | hl
    · exact hls l hl
    · exact Thread.timely_of_not_tick (hothers l hl)
  cases t with
  | listing =>
    simp only [Thread.fires, List.append_nil]
    refine ⟨hcount, hw.stored, hrest _ _ _ fun l hl => ?_, hw.matching, hw.once⟩
    rw [List.mem_singleton.mp hl]
    exact ⟨s.store.list_nodup, fun j hj _ => ⟨j, Store.mem_list hj, ⟨rfl, rfl, rfl⟩⟩⟩
  | ready now jobs =>
    simp only [Thread.fires, List.append_nil]
    cases jobs with
    | nil => exact ⟨hcount, hw.stored, hrest _ _ _ (by simp [Tick.advance]), hw.matching, hw.once⟩
    | cons j rest =>
      obtain ⟨hstored, hnew⟩ := Timely.ready hw.stored hself hrule
      exact ⟨hcount, hstored, hrest _ _ _ hnew, hw.matching, hw.once⟩
  | firing now j rest =>
    have hf : (Thread.tick (.firing now j rest)).fires n s.inflight = [] ∨
        (Thread.tick (.firing now j rest)).fires n s.inflight = [⟨j, now⟩] ∧ key j.name = key n := by
      simp only [Thread.fires]
      split_ifs with h
      · exact .inr ⟨rfl, h.1⟩
      · exact .inl rfl
    obtain ⟨hstored, hmatching, honce⟩ := Timely.fire hw.stored hself hw.matching hw.once hf
    have hstore : (Tick.advance cron input s (.firing now j rest)).2.store = s.store :=
      fire_store j j.scheduleTime s
    refine ⟨hcount, ?_, ?_, hmatching, honce⟩
    · change StoredTimely cron n (Tick.advance cron input s (.firing now j rest)).2.store _
      rw [hstore]
      exact hstored
    · change ∀ l ∈ _, Thread.Timely cron n (Tick.advance cron input s (.firing now j rest)).2.store _ l
      rw [hstore]
      refine hrest _ _ _ fun l hl => ?_
      rcases List.mem_cons.mp hl with rfl | hl
      · exact ⟨(List.nodup_cons.mp hself.1).2, hself.2.1⟩
      · exact fire_timely j _ s hl

theorem Thread.fires_of_not_tick {l : Thread} (h : l.isTick = false) (inflight : Finset Bytes) :
    l.fires n inflight = [] := by
  cases l with
  | tick t => cases h
  | call c | runJob name | launching j | delivery d => rfl

theorem Timely.step {s : Server} {left right : List Thread}
    (hw : Timely cron n ⟨s, left ++ l :: right⟩ fired) (hrule : Untouched cron n input w l) :
    Timely cron n ⟨(l.advance cron input s).2, left ++ (l.advance cron input s).1 ++ right⟩
      (fired ++ l.fires n s.inflight) := by
  cases htick : l.isTick with
  | true =>
    cases l with
    | tick t => exact hw.tick hrule
    | call c | runJob name | launching j | delivery d => cases htick
  | false =>
    have hwrites := advance_writes cron input l s
    have hnone : ticks [l] = 0 := ticks_eq_zero (by simpa using htick)
    have hnext : ticks (l.advance cron input s).1 ≤ ticks [l] := advance_ticks cron input l s
    have hsingle : ticks (left ++ l :: right) ≤ 1 := hw.single
    rw [Thread.fires_of_not_tick htick, List.append_nil]
    refine ⟨?_, hrule.stored htick hwrites hw.stored, fun l' hl' => ?_, hw.matching, hw.once⟩
    · rw [ticks_append, ticks_cons] at hsingle
      change ticks (left ++ (l.advance cron input s).1 ++ right) ≤ 1
      rw [ticks_append, ticks_append]
      omega
    · rcases Program.mem_replaced hl' with hl' | hl'
      · exact Thread.timely_of_not_tick (no_tick (Nat.le_zero.mp (hnone ▸ hnext)) hl')
      · exact hrule.thread htick hwrites (hw.threads l' (Program.mem_kept hl'))

theorem Timely.enter (hw : Timely cron n w fired) (hl : Begins w l) :
    Timely cron n ⟨w.shared, l :: w.threads⟩ fired := by
  refine ⟨?_, hw.stored, fun l' hl' => ?_, hw.matching, hw.once⟩
  · change ticks (l :: w.threads) ≤ 1
    have hsingle := hw.single
    rw [ticks_cons]
    cases l with
    | call c | runJob name => exact (Nat.zero_add _).le.trans hsingle
    | launching j | delivery d => exact hl.elim
    | tick t =>
      rw [ticks_eq_zero hl.2]
      exact le_rfl
  · rcases List.mem_cons.mp hl' with rfl | hl'
    · cases l' with
      | tick t => rw [hl.1]; trivial
      | call c | runJob name | launching j | delivery d => trivial
    · exact hw.threads l' hl'

end Steps

end CloudBurrow.Scheduler
