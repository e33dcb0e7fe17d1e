import CloudBurrow.Scheduler.Steps

namespace CloudBurrow.Scheduler

open Utf8 Threads
open Tasks (Time)

def Thread.copies : Thread → List Job
  | .launching j => [j]
  | .tick (.ready now jobs) => jobs.filter (Job.due now)
  | .tick (.firing now j rest) => j :: rest.filter (Job.due now)
  | .delivery d => if d.phase = .ended then [] else [d.job]
  | _ => []

def Backed (R : Job → Job → Prop) (s : Store) (j : Job) : Prop :=
  ∃ cur, s.under j.name = some cur ∧ R cur j

section Writes

variable {cron : Cron} {input : Input} {l : Thread} {s s' : Store}

theorem Writes.backed {R : Job → Job → Prop} {j : Job} (h : Writes cron input l s s')
    (hrewrite : ∀ cur j', Rewrites cron input l cur j' → key cur.name = key j.name → R cur j → R j' j)
    (hdelete : ∀ name, l = .call (.deleteJob name) → key name ≠ key j.name)
    (hj : Backed R s j) : Backed R s' j := by
  obtain ⟨cur, hcur, hR⟩ := hj
  cases h with
  | kept h => exact ⟨cur, h ▸ hcur, hR⟩
  | created req j' hl hj' hnone hcreated h =>
    refine ⟨cur, ?_, hR⟩
    have hne : key j'.name ≠ key j.name := by
      intro heq
      rw [Store.under_congr heq, hcur] at hnone
      cases hnone
    rw [h, if_neg hne, hcur]
  | rewrote cur' j' hcur' hj' h =>
    have hname := hj'.same.1
    rw [h]
    by_cases heq : key j'.name = key j.name
    · have hkey : key cur'.name = key j.name := hname ▸ heq
      rw [Store.under_congr hkey, hcur] at hcur'
      cases hcur'
      exact ⟨j', by rw [Store.under_put, if_pos heq], hrewrite cur j' hj' hkey hR⟩
    · exact ⟨cur, by rw [Store.under_put, if_neg heq, hcur], hR⟩
  | deleted name hl h =>
    refine ⟨cur, ?_, hR⟩
    rw [h, Store.under_without, if_neg (hdelete name hl), hcur]

def Store.Gone (s : Store) (serial : Nat) : Prop :=
  serial < s.created ∧ ∀ n cur, s.under n = some cur → cur.serial ≠ serial

structure Store.Numbered (s : Store) : Prop where
  below : ∀ n cur, s.under n = some cur → cur.serial < s.created
  apart : ∀ n n' cur cur', s.under n = some cur → s.under n' = some cur' →
    cur.serial = cur'.serial → key n = key n'

theorem Writes.gone {serial : Nat} (h : Writes cron input l s s') (hs : s.Gone serial) : s'.Gone serial := by
  obtain ⟨hlt, hnone⟩ := hs
  refine ⟨lt_of_lt_of_le hlt h.created_le, fun n cur hcur => ?_⟩
  rcases h.new hcur with hcur | ⟨req, j, -, -, -, rfl, -⟩ | ⟨old, hold, -, hj⟩
  · exact hnone n cur hcur
  · exact Nat.ne_of_gt hlt
  · exact hj.same.2 ▸ hnone n old hold

theorem Writes.numbered (h : Writes cron input l s s') (hs : s.Numbered) : s'.Numbered := by
  have hback : ∀ n cur, s'.under n = some cur →
      (∃ req j, l = .call (.createJob req) ∧ checkCreate cron req input.now = .ok j ∧ key j.name = key n ∧
        cur.serial = s.created ∧ s'.created = s.created + 1) ∨
      ∃ old, s.under n = some old ∧ cur.serial = old.serial := by
    intro n cur hcur
    rcases h.new hcur with hcur | ⟨req, j, hl, hj, hkey, rfl, hcreated⟩ | ⟨old, hold, -, hj⟩
    · exact .inr ⟨cur, hcur, rfl⟩
    · exact .inl ⟨req, j, hl, hj, hkey, rfl, hcreated⟩
    · exact .inr ⟨old, hold, hj.same.2⟩
  refine ⟨fun n cur hcur => ?_, fun n n' cur cur' hcur hcur' heq => ?_⟩
  · rcases hback n cur hcur with ⟨req, j, -, -, -, hserial, hcreated⟩ | ⟨old, hold, hserial⟩
    · omega
    · exact hserial ▸ lt_of_lt_of_le (hs.below n old hold) h.created_le
  · rcases hback n cur hcur with ⟨req, j, hl, hj, hkey, hserial, -⟩ | ⟨old, hold, hserial⟩ <;>
      rcases hback n' cur' hcur' with ⟨req', j', hl', hj', hkey', hserial', -⟩ | ⟨old', hold', hserial'⟩
    · cases hl.symm.trans hl'
      cases hj.symm.trans hj'
      exact hkey.symm.trans hkey'
    · have := hs.below n' old' hold'
      omega
    · have := hs.below n old hold
      omega
    · exact hs.apart n n' old old' hold hold' (hserial.symm.trans (heq.trans hserial'))

end Writes

theorem Store.Numbered.gone {s : Store} {name : Bytes} {j : Job} (hs : s.Numbered)
    (hj : s.under name = some j) : (s.without name).Gone j.serial := by
  refine ⟨hs.below name j hj, fun n cur hcur heq => ?_⟩
  rw [Store.under_without] at hcur
  split_ifs at hcur with hkey
  exact hkey (hs.apart n name cur j hcur hj heq).symm

def Unheld (w : World) (name : Bytes) : Prop := ∀ l ∈ w.threads, ∀ j ∈ l.copies, key name ≠ key j.name

instance (w : World) (name : Bytes) : Decidable (Unheld w name) :=
  inferInstanceAs (Decidable (∀ l ∈ w.threads, ∀ j ∈ l.copies, key name ≠ key j.name))

def Spaced (_ : Input) (w : World) : Thread → Prop
  | .call (.deleteJob name) => Unheld w name
  | .launching j => j.name ∉ w.shared.inflight
  | _ => True

instance (input : Input) (w : World) : DecidablePred (Spaced input w)
  | .call (.deleteJob name) => inferInstanceAs (Decidable (Unheld w name))
  | .launching _ => inferInstanceAs (Decidable (¬ _))
  | .call (.createJob _) | .call (.updateJob _ _) | .call (.pauseJob _) | .call (.resumeJob _)
  | .runJob _ | .tick _ | .delivery _ => .isTrue trivial

section Runs

variable {cron : Cron} {s : Store} {ms before after middle : List (Move Thread Input)}

end Runs

def Delivery.Starts (input : Input) (d : Delivery) : Prop :=
  d.phase = .starting ∨ d.phase = .waiting ∧ input.cancelled = false

section Laws

variable (cron : Cron) (w : World) (ms : List (Move Thread Input))

end Laws

theorem Delivery.Starts.copy {d : Delivery} {input : Input} (h : d.Starts input) :
    d.job ∈ (Thread.delivery d).copies := by
  rcases h with hphase | ⟨hphase, -⟩ <;> simp [Thread.copies, hphase]

def never : Bytes := ascii "0 0 30 2 *"

def daily : Bytes := ascii "0 0 * * *"

def hourly : Bytes := ascii "0 * * * *"

def period (schedule : Bytes) : Time := if schedule = daily then 24 * Tasks.hour else Tasks.hour

theorem period_pos (schedule : Bytes) : 0 < period schedule := by
  unfold period
  split_ifs <;> decide

def almanac : Cron where
  loads _ := true
  parses _ := .ok ()
  next schedule _ t := if schedule = never then 0 else (t / period schedule + 1) * period schedule
  matching schedule _ t := schedule ≠ never ∧ period schedule ∣ t
  next_matching := by
    intro schedule zone t h
    split_ifs at h ⊢ with hs
    · exact absurd rfl h
    · exact ⟨hs, Int.dvd_mul_left _ _⟩
  next_after := by
    intro schedule zone t h
    split_ifs at h ⊢ with hs
    · exact absurd rfl h
    · exact Int.lt_ediv_add_one_mul_self t (period_pos schedule)

def sweepName : Bytes := ascii "projects/demo-project/locations/here/jobs/sweep"

def sweepRequest (schedule : Bytes) : CreateJobRequest :=
  ⟨ascii "projects/demo-project/locations/here",
    some ⟨sweepName, [], schedule, [], some (.httpTarget (ascii "http://a") .post [] [] none),
      some ⟨3, none, none, none, 0⟩, none⟩⟩

def served (c : Call) (now : Time) : List (Move Thread Input) :=
  [.enter (.call c), .step 0 { now := now }]

def sweepJob : Job where
  name := sweepName
  description := []
  schedule := hourly
  timeZone := ascii "Etc/UTC"
  state := .enabled
  http := some ⟨ascii "http://a", .post, [], [], none, none⟩
  pubSub := none
  appEngine := none
  retry := ⟨3, 0, 5 * Tasks.second, Tasks.hour, 5⟩
  retryUnset := false
  attemptDeadline := 180 * Tasks.second
  userUpdateTime := 1
  scheduleTime := Tasks.hour
  lastAttemptTime := 0
  lastCode := 0
  lastMessage := []
  serial := 0

end CloudBurrow.Scheduler
