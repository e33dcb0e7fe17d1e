import CloudBurrow.Tasks.Settlement

namespace CloudBurrow.Tasks

open Utf8 Threads Store Transaction.Txn

def Reserved (n : Bytes) (u : Time) (s : Store) : Prop := ∃ v ≥ u, s.tombstones[n]? = some v

structure Timely (u clock : Time) : Prop where
  before : clock < u
  within : u ≤ clock + tombstoneTTL

section
variable {s s' : Store} {n name : Bytes} {u now : Time} {t : Task}

theorem getElem?_unmarked (m : Std.ExtTreeMap Bytes Time) (gone : Bytes → Bool) :
    (m.filter fun n _ => !gone n)[n]? = if gone n then none else m[n]? := by
  rw [Std.ExtTreeMap.getElem?_filter']
  cases m[n]? <;> cases gone n <;> simp

theorem Reserved.createTask (hr : Reserved n u s) (hnow : now < u) (h : s.createTask t now = .ok s') :
    t.name ≠ n ∧ Reserved n u s' := by
  obtain ⟨v, hv, hmark⟩ := hr
  unfold Store.createTask at h
  split at h
  · cases h
  · obtain ⟨_, _, h⟩ := except_bind_ok h
    obtain ⟨q, _, h⟩ := except_bind_ok h
    split at h
    · cases h
    · obtain ⟨_, hfree, h⟩ := except_bind_ok h
      have hne : t.name ≠ n := by
        rintro rfl
        unfold nameFree at hfree
        grind
      cases h
      exact ⟨hne, v, hv, by simp [Std.ExtTreeMap.getElem?_erase, hne, put, hmark]⟩

theorem deleteTask_marks (h : s.deleteTask name now = .ok s') (hlive : s.expiredTombstone now n = false) :
    ∃ t, s.tasks[name]? = some t ∧ s'.tombstones[n]? = (s.withTombstone t now)[n]? := by
  obtain ⟨t, ht, h⟩ := except_bind_ok h
  cases h
  refine ⟨t, getTask_ok ht, ?_⟩
  dsimp only
  split_ifs
  · rw [getElem?_unmarked, hlive, if_neg Bool.false_ne_true]
  · rfl

theorem Reserved.deleteTask (hr : Reserved n u s) (hnow : Timely u now) (h : s.deleteTask name now = .ok s') :
    Reserved n u s' := by
  obtain ⟨v, hv, hmark⟩ := hr
  have hlive : s.expiredTombstone now n = false := by
    simp [expiredTombstone, hmark, hnow.before.trans_le hv]
  obtain ⟨t, -, hnew⟩ := deleteTask_marks h hlive
  unfold withTombstone at hnew
  split at hnew
  · exact ⟨v, hv, hnew.trans hmark⟩
  · rw [Std.ExtTreeMap.getElem?_insert] at hnew
    split_ifs at hnew
    · exact ⟨_, hnow.within, hnew⟩
    · exact ⟨v, hv, hnew.trans hmark⟩

theorem Reserved.takeRun {requested : Time} (hr : Reserved n u s) : Reserved n u (s.takeRun name requested) := by
  unfold Store.takeRun
  split
  · exact hr
  · split <;> exact hr

end

structure Calm (n : Bytes) (u : Time) (input : Input) (l : Thread) : Prop where
  now : Timely u input.now
  later : Timely u input.later
  queue : ∀ q, l = .call (.deleteQueue q) → (under q).isPrefixOf n = false

variable {n : Bytes} {u now : Time} {w : World} {input : Input} {after : List (Move Thread Input)}

theorem Reserved.apply {c : Call} {s s' : Store} (hr : Reserved n u s) (hc : Calm n u input (.call c))
    (h : c.apply s input.now = .ok s') : Reserved n u s' := by
  cases c with
  | createTask t => exact (hr.createTask hc.now.before h).2
  | deleteTask name => exact hr.deleteTask hc.now h
  | deleteQueue name =>
    obtain ⟨_, _, h⟩ := except_bind_ok h
    cases h
    obtain ⟨v, hv, hmark⟩ := hr
    refine ⟨v, hv, (getElem?_unmarked s.tombstones (under name).isPrefixOf).trans ?_⟩
    rw [hc.queue name rfl, if_neg Bool.false_ne_true, hmark]
  | createQueue q =>
    obtain ⟨_, _, h⟩ := except_bind_ok h
    split at h <;> cases h
    exact hr
  | updateQueue | setQueueState | purgeQueue | runTask =>
    obtain ⟨_, _, h⟩ := except_bind_ok h
    cases h
    exact hr

theorem Reserved.advance {l : Thread} {s : Server} (hr : Reserved n u s.store) (hc : Calm n u input l) :
    Reserved n u (cloudTasks.advance input l s).2.store := by
  cases l with
  | call c =>
    change Reserved n u (Attempt.settle s (c.apply s.store input.now)).store
    cases happly : c.apply s.store input.now with
    | error e => exact hr
    | ok store => exact hr.apply hc happly
  | pass p =>
    have hstep := p.advance_step input s
    change Reserved n u (p.advance input s).2.store
    generalize (p.advance input s).1 = ls, (p.advance input s).2 = s' at hstep ⊢
    cases hstep with
    | forced fresh _ => exact hr.takeRun
    | _ => exact hr
  | attempt a =>
    have hstep := a.advance_step input s
    change Reserved n u (a.advance input s).2.store
    generalize (a.advance input s).1 = ls, (a.advance input s).2 = s' at hstep ⊢
    cases hstep with
    | wrote phase t store _ _ hstore _ =>
      obtain ⟨_, _, hstore⟩ := except_bind_ok hstore
      cases hstore
      exact hr
    | succeeded code status store _ _ _ _ hstore => exact hr.deleteTask hc.later hstore
    | exhausted current retry store _ _ hstore => exact hr.deleteTask hc.later hstore
    | _ => exact hr

def Quiet (n : Bytes) (u : Time) : Move Thread Input → World → Prop
  | .enter _, _ => True
  | .step i input, w => ∀ l, w.threads[i]? = some l → Calm n u input l

def World.Reserves (n : Bytes) (u : Time) (w : World) : Prop := Reserved n u w.shared.store

theorem deleted_name_stays_reserved {s : Store} (hdelete : s.deleteTask n now = .ok w.shared.store)
    (hnamed : (s.tasks[n]?).any (!·.namedByServer)) (hlive : s.expiredTombstone now n = false)
    (hafter : cloudTasks.Along (Quiet n (now + tombstoneTTL)) after w) :
    World.Reserves n (now + tombstoneTTL) (cloudTasks.run after w) ∧
      ∀ t later s', t.name = n → later < now + tombstoneTTL →
        (cloudTasks.run after w).shared.store.createTask t later ≠ .ok s' := by
  have hstart : World.Reserves n (now + tombstoneTTL) w := by
    obtain ⟨t, ht, hmark⟩ := deleteTask_marks hdelete hlive
    refine ⟨_, le_rfl, hmark.trans ?_⟩
    simp_all [withTombstone, s.keyed n t ht]
  have hrun : World.Reserves n (now + tombstoneTTL) (cloudTasks.run after w) :=
    Program.invariant (fun _ _ _ h => h) (fun _ _ _ _ l _ hok hget h => Reserved.advance h (hok l hget)) hafter hstart
  exact ⟨hrun, fun t later s' hname hlater hcreate => (hrun.createTask hlater hcreate).1 hname⟩

def passing (name : String) : Task := plainTask (mailQueue ++ ascii name) mailQueue []

def welcomed : Store := Sys.shared (cloudTasks.run (started.take 4 ++
  [.enter (.call (.createTask (passing "/tasks/early"))), .step 0 { now := 3 },
    .enter (.call (.createTask (passing "/tasks/late"))), .step 0 { now := 3 },
    .enter (.call (.deleteTask (passing "/tasks/early").name)), .step 0 { now := 4 }]) (World.over .empty)) |>.store

def dismissed : World := ⟨⟨((welcomed.deleteTask welcomeTask 5).toOption.getD welcomed), .idle⟩, []⟩

def comeback : List (Move Thread Input) :=
  [.enter (.call (.deleteTask (passing "/tasks/late").name)),
    .step 0 { now := 4 + tombstoneTTL, later := 4 + tombstoneTTL },
    .enter (.call (.createTask secondTask)), .step 0 { now := 4 + tombstoneTTL, later := 4 + tombstoneTTL }]

-- The deletion an hour later sweeps the earliest tombstone and keeps this one.
theorem dismissed_welcome_reserved : welcomed.deleteTask welcomeTask 5 = .ok dismissed.shared.store ∧
    (dismissed.shared.store.tombstones[(passing "/tasks/early").name]?).isSome ∧
    (cloudTasks.run comeback dismissed).shared.store.tombstones[(passing "/tasks/early").name]? = none ∧
    World.Reserves welcomeTask (5 + tombstoneTTL) (cloudTasks.run comeback dismissed) := by
  obtain ⟨hnamed, hlive⟩ : (welcomed.tasks[welcomeTask]?).any (!·.namedByServer) ∧
      welcomed.expiredTombstone 5 welcomeTask = false := by decide +kernel
  have hdelete : welcomed.deleteTask welcomeTask 5 = .ok dismissed.shared.store := by
    obtain ⟨store, hdelete⟩ := deleteTask_isSome 5 (Option.isSome_of_any hnamed)
    rw [dismissed, hdelete]
    rfl
  have hquiet : cloudTasks.Along (Quiet welcomeTask (5 + tombstoneTTL)) comeback dismissed := by
    refine ⟨trivial, ?_, trivial, ?_, trivial⟩
    all_goals
      rintro l ⟨⟩
      exact ⟨⟨by decide, by decide⟩, ⟨by decide, by decide⟩, nofun⟩
  exact ⟨hdelete, by decide +kernel, by decide +kernel,
    (deleted_name_stays_reserved hdelete hnamed hlive hquiet).1⟩

end CloudBurrow.Tasks
