import CloudBurrow.Scheduler.Deliveries

namespace CloudBurrow.Scheduler

open Utf8 Threads
open Tasks (Time)

def Thread.pending : Thread → List Job
  | .tick (.ready now jobs) => jobs.filter (Job.due now)
  | .tick (.firing now j rest) => j :: rest.filter (Job.due now)
  | _ => []

def Unpending (w : World) (name : Bytes) : Prop :=
  ∀ l ∈ w.threads, ∀ j ∈ l.pending, key name ≠ key j.name

instance (w : World) (name : Bytes) : Decidable (Unpending w name) :=
  inferInstanceAs (Decidable (∀ l ∈ w.threads, ∀ j ∈ l.pending, key name ≠ key j.name))

def Recurs (cron : Cron) (schedule zone : Bytes) (t : Time) : Prop := cron.next schedule zone t ≠ 0

instance (cron : Cron) (schedule zone : Bytes) (t : Time) : Decidable (Recurs cron schedule zone t) :=
  inferInstanceAs (Decidable (¬ _))

def Undisturbed (cron : Cron) (input : Input) (w : World) : Thread → Prop
  | .call (.createJob req) => ∀ p ∈ req.job, Recurs cron p.schedule p.zone input.now
  | .call (.updateJob job paths) =>
    ∀ p ∈ job, Unpending w p.name ∧ ∀ cur ∈ w.shared.store.under p.name,
      ∀ merged ∈ (mergedWith p paths cur).toOption, Recurs cron merged.schedule merged.zone input.now
  | .call (.pauseJob name) => Unpending w name
  | .call (.resumeJob name) => ∀ cur ∈ w.shared.store.under name, cur.state = .paused →
      Recurs cron cur.schedule cur.timeZone input.now
  | .call (.deleteJob name) => Unpending w name
  | .tick (.ready now (j :: _)) => j.due now = true → Recurs cron j.schedule j.timeZone now
  | _ => True

instance (cron : Cron) (input : Input) (w : World) : DecidablePred (Undisturbed cron input w)
  | .call (.createJob _) => inferInstanceAs (Decidable (∀ p ∈ _, _))
  | .call (.updateJob _ _) => inferInstanceAs (Decidable (∀ p ∈ _, _ ∧ ∀ cur ∈ _, ∀ merged ∈ _, _))
  | .call (.pauseJob name) => inferInstanceAs (Decidable (Unpending w name))
  | .call (.resumeJob _) => inferInstanceAs (Decidable (∀ cur ∈ _, _ → _))
  | .call (.deleteJob name) => inferInstanceAs (Decidable (Unpending w name))
  | .tick (.ready _ (_ :: _)) => inferInstanceAs (Decidable (_ → _))
  | .tick (.ready _ []) | .tick .listing | .tick (.firing _ _ _) | .runJob _ | .launching _
  | .delivery _ => .isTrue trivial

structure Follows (cur j : Job) : Prop where
  same : cur.serial = j.serial
  enabled : cur.state = .enabled
  schedule : cur.schedule = j.schedule
  timeZone : cur.timeZone = j.timeZone

def OnSlots (cron : Cron) (s : Store) : Prop :=
  ∀ n cur, s.under n = some cur → cur.state = .enabled →
    cron.matching cur.schedule cur.timeZone cur.scheduleTime

theorem Job.due_enabled {now : Time} {j : Job} (h : j.due now = true) : j.state = .enabled := by
  simp only [Job.due, Bool.and_eq_true, decide_eq_true_eq] at h
  exact h.1

theorem advance_pending {cron : Cron} {input : Input} {l l' : Thread} {s : Server} {j : Job}
    (hl : l' ∈ (l.advance cron input s).1) (hj : j ∈ l'.pending) :
    l.isTick = true ∧ (j ∈ l.pending ∨ s.store.under j.name = some j ∧ j.state = .enabled) := by
  cases advance_spawns hl with
  | accepted name j' h | started _ d h | moved d d' hjob hphase => cases hj
  | listed =>
    obtain ⟨hlist, hdue⟩ := List.mem_filter.mp hj
    exact ⟨rfl, .inr ⟨Store.mem_list hlist, Job.due_enabled hdue⟩⟩
  | skipped now j' rest =>
    exact ⟨rfl, .inl (((List.sublist_cons_self j' rest).filter _).subset hj)⟩
  | due now j' rest h => exact ⟨rfl, .inl (by simpa [Thread.pending, h] using hj)⟩
  | fired now j' rest => exact ⟨rfl, .inl (List.mem_cons_of_mem _ hj)⟩

section Steps

variable {cron : Cron} {input : Input} {w : World} {l : Thread} {s s' : Store}

theorem Undisturbed.follows (hrule : Undisturbed cron input w l) {l' : Thread} (hl' : l' ∈ w.threads)
    {cur j j' : Job} (hj : j ∈ l'.pending) (hwrites : Rewrites cron input l cur j')
    (hkey : key cur.name = key j.name) (h : Follows cur j) : Follows j' j := by
  cases hwrites with
  | updated p paths _ _ _ hname => exact absurd (hname.trans hkey) ((hrule p rfl).1 l' hl' j hj)
  | paused name _ hname => exact absurd (hname.trans hkey) (hrule l' hl' j hj)
  | resumed name _ _ hok _ =>
    rcases resumed_ok hok with ⟨-, rfl⟩ | ⟨hpaused, -⟩
    · exact h
    · exact absurd h.enabled hpaused
  | advanced now copy _ rest _ _ => exact ⟨h.same, h.enabled, h.schedule, h.timeZone⟩
  | recorded d _ _ _ hok _ =>
    cases hok
    exact ⟨h.same, h.enabled, h.schedule, h.timeZone⟩

theorem Undisturbed.undeleted (hrule : Undisturbed cron input w l) {l' : Thread} (hl' : l' ∈ w.threads)
    {j : Job} (hj : j ∈ l'.pending) (name : Bytes) (hl : l = .call (.deleteJob name)) :
    key name ≠ key j.name := by
  subst hl
  exact hrule l' hl' j hj

theorem Undisturbed.rewrites (hrule : Undisturbed cron input w l) {cur j : Job}
    (hcur : w.shared.store.under cur.name = some cur)
    (hpending : ∀ copy ∈ l.pending, key copy.name = key cur.name → Follows cur copy)
    (hwrites : Rewrites cron input l cur j)
    (hslot : cur.state = .enabled → cron.matching cur.schedule cur.timeZone cur.scheduleTime)
    (henabled : j.state = .enabled) : cron.matching j.schedule j.timeZone j.scheduleTime := by
  cases hwrites with
  | updated p paths _ _ hok hname =>
    obtain ⟨-, -, -, htime, merged, hmerged, hschedule, hzone⟩ := updated_ok hok
    have hrecurs : Recurs cron merged.schedule merged.zone input.now :=
      (hrule p rfl).2 cur (Store.under_congr hname ▸ hcur) merged (by rw [hmerged]; rfl)
    rw [htime, hschedule, hzone]
    exact cron.next_matching _ _ _ hrecurs
  | paused name _ _ => cases henabled
  | resumed name _ _ hok hname =>
    rcases resumed_ok hok with ⟨hstate, rfl⟩ | ⟨hstate, rfl⟩
    · exact hslot hstate
    · have hpaused : cur.state = .paused := by
        cases h : cur.state with
        | enabled => exact absurd h hstate
        | paused => rfl
      exact cron.next_matching _ _ _ (hrule cur (Store.under_congr hname ▸ hcur) hpaused)
  | advanced now copy _ rest hdue hname =>
    have hcopy : copy ∈ (Thread.tick (.ready now (copy :: rest))).pending :=
      List.mem_filter.mpr ⟨List.mem_cons_self, hdue⟩
    have hfollows := hpending copy hcopy hname
    change cron.matching cur.schedule cur.timeZone _
    rw [hfollows.schedule, hfollows.timeZone]
    exact cron.next_matching _ _ _ (hrule hdue)
  | recorded d _ _ _ hok _ =>
    cases hok
    exact hslot henabled

theorem Undisturbed.onSlots (hrule : Undisturbed cron input w l)
    (hwrites : Writes cron input l w.shared.store s')
    (hpending : ∀ copy ∈ l.pending, Backed Follows w.shared.store copy)
    (hslots : OnSlots cron w.shared.store) : OnSlots cron s' := by
  intro n cur hcur henabled
  rcases hwrites.new hcur with hcur | ⟨req, j, hl, hj, -, rfl, -⟩ | ⟨old, hn, hold, hj⟩
  · exact hslots n cur hcur henabled
  · subst hl
    obtain ⟨p, hp, -, hschedule, hzone, -, htime⟩ := checkCreate_ok hj
    change cron.matching j.schedule j.timeZone j.scheduleTime
    rw [htime, hschedule, hzone]
    exact cron.next_matching _ _ _ (hrule p hp)
  · refine hrule.rewrites hold (fun copy hcopy hkey => ?_) hj (hslots n old hn) henabled
    obtain ⟨cur', hcur', hfollows⟩ := hpending copy hcopy
    rw [Store.under_congr hkey, hold] at hcur'
    cases hcur'
    exact hfollows

end Steps

section Runs

variable {cron : Cron} {s : Store} {ms : List (Move Thread Input)}

theorem begins_pending {w : World} {l : Thread} (h : Begins w l) : l.pending = [] := by
  cases l with
  | call c | runJob name => rfl
  | tick t => rw [h.1]; rfl
  | launching j | delivery d => exact h.elim

theorem slots_run (hs : OnSlots cron s)
    (hms : (cloudScheduler cron).Along (Under (Undisturbed cron)) ms (World.over s)) :
    OnSlots cron ((cloudScheduler cron).run ms (World.over s)).shared.store ∧
      ∀ l ∈ ((cloudScheduler cron).run ms (World.over s)).threads, ∀ j ∈ l.pending,
        Backed Follows ((cloudScheduler cron).run ms (World.over s)).shared.store j := by
  let G : Server → Prop := fun s => OnSlots cron s.store
  let P : Server → Thread → Prop := fun s l => ∀ j ∈ l.pending, Backed Follows s.store j
  have hstart : G (World.over s).shared := hs
  have hnone : ∀ l ∈ (World.over s).threads, P (World.over s).shared l := by
    intro l hl
    cases hl
  refine Program.each ?_ ?_ hms hstart hnone
  · intro w l hbegins _ j hj
    rw [begins_pending hbegins] at hj
    cases hj
  · intro s i input left l right hok hget hslots hP hothers
    have hrule : Undisturbed cron input ⟨s, left ++ l :: right⟩ l := hok l hget
    have hwrites := advance_writes cron input l s
    have hkept : ∀ l' ∈ left ++ l :: right, ∀ j ∈ l'.pending,
        Backed Follows s.store j → Backed Follows (l.advance cron input s).2.store j := by
      intro l' hl' j hj hbacked
      exact hwrites.backed (fun cur j' hrewrite hkey h => hrule.follows hl' hj hrewrite hkey h)
        (hrule.undeleted hl' hj) hbacked
    have hself : l ∈ left ++ l :: right := by simp
    refine ⟨hrule.onSlots hwrites hP hslots, fun l' hl' j hj => ?_, fun l' hl' j hj => ?_⟩
    · obtain ⟨htick, hj | ⟨hunder, henabled⟩⟩ := advance_pending hl' hj
      · exact hkept l hself j hj (hP j hj)
      · refine hwrites.backed (fun cur j' hrewrite hkey h => ?_) (fun name hl => ?_)
          ⟨j, hunder, ⟨rfl, henabled, rfl, rfl⟩⟩
        · cases hrewrite with
          | advanced now copy _ rest _ _ => exact ⟨h.same, h.enabled, h.schedule, h.timeZone⟩
          | _ => cases htick
        · subst hl
          cases htick
    · have hmem : l' ∈ left ++ l :: right := Program.mem_kept hl'
      exact hkept l' hmem j hj (hothers l' hl' j hj)

end Runs

section Laws

variable (cron : Cron) (w : World) (ms : List (Move Thread Input))

def SlotsCurrent : Prop :=
  ∀ before after, ms = before ++ after → OnSlots cron ((cloudScheduler cron).run before w).shared.store

def FiringsCurrent : Prop :=
  ∀ before i input after now j rest, ms = before ++ .step i input :: after →
    ((cloudScheduler cron).run before w).threads[i]? = some (.tick (.firing now j rest)) →
    ∃ cur, ((cloudScheduler cron).run before w).shared.store.under j.name = some cur ∧
      cur.serial = j.serial ∧ cur.state = .enabled

end Laws

theorem next_run_follows_configuration (cron : Cron) (s : Store) (ms : List (Move Thread Input))
    (hs : OnSlots cron s)
    (hms : (cloudScheduler cron).Along (Under (Undisturbed cron)) ms (World.over s)) :
    SlotsCurrent cron (World.over s) ms ∧ FiringsCurrent cron (World.over s) ms := by
  constructor
  · intro before after hsplit
    rw [hsplit] at hms
    exact (slots_run hs (Program.along_append.mp hms).1).1
  · intro before i input after now j rest hsplit hget
    rw [hsplit] at hms
    obtain ⟨cur, hcur, hfollows⟩ := (slots_run hs hms.at_move.1).2 _ (List.mem_of_getElem? hget) j
      List.mem_cons_self
    exact ⟨cur, hcur, hfollows.same, hfollows.enabled⟩

def tickAt (now : Time) : List (Move Thread Input) := [.enter (.tick .listing), .step 0 { now := now }]

def sweepUpdate : Call :=
  .updateJob (some ⟨sweepName, [], daily, [], none, none, none⟩) [ascii "schedule"]

def orderlyRun : List (Move Thread Input) :=
  served (.createJob (sweepRequest hourly)) 1 ++ tickAt Tasks.hour ++
    [.step 0 {}, .step 0 {}, .step 0 {}] ++ served sweepUpdate (Tasks.hour + 1) ++
    served (.pauseJob sweepName) (Tasks.hour + 2) ++ served (.resumeJob sweepName) (Tasks.hour + 3)

theorem orderlyRun_follows_configuration : SlotsCurrent almanac (World.over .empty) orderlyRun ∧
      FiringsCurrent almanac (World.over .empty) orderlyRun :=
  next_run_follows_configuration almanac .empty orderlyRun
    (fun n cur hcur _ => by simp [Store.under, Store.empty] at hcur) (by decide +kernel)

def lateUpdate : List (Move Thread Input) :=
  served (.createJob (sweepRequest hourly)) 1 ++ tickAt Tasks.hour ++
    served sweepUpdate Tasks.hour ++ [.step 0 {}]

def lateCall (c : Call) : List (Move Thread Input) :=
  served (.createJob (sweepRequest hourly)) 1 ++ tickAt Tasks.hour ++ [.step 0 {}] ++
    served c Tasks.hour

theorem late_calls_disregarded : ¬ SlotsCurrent almanac (World.over .empty) lateUpdate ∧
      ¬ FiringsCurrent almanac (World.over .empty) (lateCall (.pauseJob sweepName) ++ [.step 0 {}]) ∧
      ¬ FiringsCurrent almanac (World.over .empty) (lateCall (.deleteJob sweepName) ++ [.step 0 {}]) := by
  refine ⟨fun h => ?_, fun h => ?_, fun h => ?_⟩
  · -- the second hour of the day is stored with the daily schedule
    have hslot := (h lateUpdate [] (List.append_nil _).symm sweepName
      { sweepJob with schedule := daily, userUpdateTime := Tasks.hour, scheduleTime := 2 * Tasks.hour }
      (by decide +kernel) rfl).2
    exact absurd hslot (by decide)
  · obtain ⟨cur, hcur, -, henabled⟩ :=
      h (lateCall (.pauseJob sweepName)) 0 {} [] Tasks.hour sweepJob [] rfl (by decide +kernel)
    have hpaused : ((cloudScheduler almanac).run (lateCall (.pauseJob sweepName))
        (World.over .empty)).shared.store.under sweepJob.name =
        some { sweepJob with state := .paused, scheduleTime := 2 * Tasks.hour } := by decide +kernel
    rw [hpaused] at hcur
    cases hcur
    cases henabled
  · obtain ⟨cur, hcur, -, -⟩ :=
      h (lateCall (.deleteJob sweepName)) 0 {} [] Tasks.hour sweepJob [] rfl (by decide +kernel)
    have hnone : ((cloudScheduler almanac).run (lateCall (.deleteJob sweepName))
        (World.over .empty)).shared.store.under sweepJob.name = none := by decide +kernel
    rw [hnone] at hcur
    cases hcur

end CloudBurrow.Scheduler
