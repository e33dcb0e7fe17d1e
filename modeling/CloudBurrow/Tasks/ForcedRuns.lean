import CloudBurrow.Tasks.Settlement

namespace CloudBurrow.Tasks

open Utf8 Threads Transaction.Txn

namespace Store

variable {s s' : Store} {t : Task} {name n : Bytes} {now : Time}

def requested (s : Store) (n : Bytes) : Time := ((s.tasks[n]?).map Task.runRequested).getD 0

theorem requested_of_task (h : s.tasks[n]? = some t) : s.requested n = t.runRequested := by
  simp [requested, h]

theorem requested_of_none (h : s.tasks[n]? = none) : s.requested n = 0 := by
  simp [requested, h]

theorem requested_put (s : Store) (t : Task) (n : Bytes) :
    (s.put t).requested n = if t.name = n then t.runRequested else s.requested n := by
  unfold requested
  rw [getElem?_put]
  split_ifs <;> rfl

theorem requested_without {gone : Bytes → Bool} (h : s'.tasks = (s.without gone).tasks) (n : Bytes) :
    s'.requested n = s.requested n ∨ s'.tasks[n]? = none := by
  unfold requested
  rw [h, getElem?_without]
  split_ifs
  · exact .inr rfl
  · exact .inl rfl

theorem updateTask_requested (h : s.updateTask t = .ok s') : s'.requested n = s.requested n ∨
      t.name = n ∧ s.requested n = 0 ∧ s'.requested n = t.runRequested := by
  obtain ⟨stored, hstored, h⟩ := except_bind_ok h
  cases h
  rw [requested_put]
  split_ifs with hnewer hname hname
  · left
    rw [← hname, requested_of_task (getTask_ok hstored)]
  · exact .inl rfl
  · have hold : s.requested n = stored.runRequested := by
      rw [← hname, requested_of_task (getTask_ok hstored)]
    by_cases hzero : stored.runRequested = 0
    · exact .inr ⟨hname, hold.trans hzero, rfl⟩
    · left
      rw [hold]
      exact (not_not.mp (not_and.mp hnewer hzero)).symm
  · exact .inl rfl

theorem takeRun_requested (s : Store) (name : Bytes) (r : Time) (n : Bytes) :
    (s.takeRun name r).requested n = if name = n ∧ s.requested n = r then 0 else s.requested n := by
  unfold takeRun
  split
  · next hnone =>
      split_ifs with h
      · rw [← h.1, requested_of_none hnone]
      · rfl
  · next t ht =>
      have hname : t.name = name := s.keyed name t ht
      by_cases hn : name = n
      · subst hn
        have hold := requested_of_task ht
        by_cases hr : t.runRequested = r
        · rw [if_pos hr, if_pos ⟨rfl, hold.trans hr⟩, requested_put, if_pos hname]
        · have hother : ¬ (name = name ∧ s.requested name = r) := fun h => hr (hold.symm.trans h.2)
          rw [if_neg hr, if_neg hother]
      · have hother : ¬ (name = n ∧ s.requested n = r) := fun h => hn h.1
        rw [if_neg hother]
        split_ifs
        · rw [requested_put, if_neg fun h => hn (hname.symm.trans h)]
        · rfl

end Store

variable {now : Time}

theorem apply_requested {c : Call} {s s' : Store} (h : c.apply s now = .ok s') (n : Bytes) :
    s'.requested n = s.requested n ∨ s'.tasks[n]? = none ∨
      (∃ t, c = .createTask t ∧ s.tasks[n]? = none ∧ s'.requested n = t.runRequested) ∨
      c = .runTask n ∧ s.tasks[n]?.isSome ∧ s'.requested n = now := by
  cases c with
  | createQueue q =>
    obtain ⟨_, _, h⟩ := except_bind_ok h
    split at h <;> cases h
    exact .inl rfl
  | updateQueue name retry limit host | setQueueState name state =>
    obtain ⟨_, _, h⟩ := except_bind_ok h
    cases h
    exact .inl rfl
  | deleteQueue name | purgeQueue name | deleteTask name =>
    obtain ⟨_, _, h⟩ := except_bind_ok h
    cases h
    rcases Store.requested_without (s := s) rfl n with hkept | hnone
    · exact .inl hkept
    · exact .inr (.inl hnone)
  | createTask t =>
    change s.createTask t now = .ok s' at h
    unfold Store.createTask at h
    split at h
    · cases h
    · next parsed _ =>
        obtain ⟨_, _, h⟩ := except_bind_ok h
        obtain ⟨q, _, h⟩ := except_bind_ok h
        split at h
        · cases h
        · obtain ⟨_, hfree, h⟩ := except_bind_ok h
          cases h
          have hput := s.requested_put (Store.stamped t (Store.filing t parsed) s.created now) n
          split_ifs at hput with hname
          · have hnone : s.tasks[n]? = none := by
              have hboard : s.board n = none := hname ▸ Store.nameFree_ok hfree
              exact Option.map_eq_none_iff.mp hboard
            exact .inr (.inr (.inl ⟨t, rfl, hnone, hput⟩))
          · exact .inl hput
  | runTask name =>
    obtain ⟨t, ht, h⟩ := except_bind_ok h
    cases h
    have htask := Store.getTask_ok ht
    rw [Store.requested_put]
    split_ifs with hname
    · right; right; right
      have hn : name = n := (s.keyed name t htask).symm.trans hname
      subst hn
      exact ⟨rfl, by simp [htask], rfl⟩
    · exact .inl rfl

inductive Requests (input : Input) (n : Bytes) (l : Thread) (s s' : Store) : Prop
  | kept (h : s'.requested n = s.requested n)
  | gone (h : s'.tasks[n]? = none)
  | made (t : Task) (hl : l = .call (.createTask t)) (hnone : s.tasks[n]? = none)
      (h : s'.requested n = t.runRequested)
  | asked (hl : l = .call (.runTask n)) (hsome : s.tasks[n]?.isSome) (h : s'.requested n = input.now)
  | written (a : Attempt) (c : Task) (hl : l = .attempt a) (hc : c ∈ l.copies) (hname : c.name = n)
      (hnone : s.requested n = 0) (h : s'.requested n = c.runRequested)
  | taken (p : Pass) (fresh : Task) (hl : l = .pass p) (hstage : p.stage = .taking fresh)
      (hname : fresh.name = n)
      (h : s'.requested n = if s.requested n = fresh.runRequested then 0 else s.requested n)

variable {input : Input} {n : Bytes} {s : Server} {t : Task}

theorem settle_requested {a : Attempt} {c : Task} (hc : c ∈ (Thread.attempt a).copies) (hname : t.name = c.name)
    (hrun : t.runRequested = c.runRequested) :
    Requests input n (.attempt a) s.store (Attempt.settle s (s.store.updateTask t)).store := by
  cases hu : s.store.updateTask t with
  | error e => exact .kept rfl
  | ok store =>
    rcases Store.updateTask_requested (n := n) hu with hkept | ⟨htn, hnone, hset⟩
    · exact .kept hkept
    · exact .written a c rfl hc (hname.symm.trans htn) hnone (hset.trans hrun)

variable {l : Thread}

theorem deleteTask_requested {name : Bytes} {s s' : Store}
    (h : s.deleteTask name now = .ok s') : Requests input n l s s' := by
  obtain ⟨_, _, h⟩ := except_bind_ok h
  cases h
  rcases Store.requested_without (s := s) rfl n with hkept | hnone
  · exact .kept hkept
  · exact .gone hnone

theorem dispatch_requested (input : Input) (n : Bytes) (a : Attempt) (s : Server) :
    Requests input n (.attempt a) s.store (a.dispatch input s).2.store := by
  have hself : a.task ∈ (Thread.attempt a).copies := List.mem_cons_self
  unfold Attempt.dispatch
  dsimp only
  split
  · exact settle_requested hself rfl rfl
  · exact .kept rfl
  · exact settle_requested hself rfl rfl
  · split
    · split
      · next hstore => exact deleteTask_requested hstore
      · exact .kept rfl
    · exact settle_requested hself rfl rfl

theorem attempt_requested (input : Input) (n : Bytes) (a : Attempt) (s : Server) :
    Requests input n (.attempt a) s.store (a.advance input s).2.store := by
  unfold Attempt.advance
  split
  · exact dispatch_requested input n a s
  · split <;> exact .kept rfl
  · split <;> exact .kept rfl
  · next current retry h =>
      have hc : current ∈ (Thread.attempt a).copies := by simp [Thread.copies, h, Phase.current]
      unfold Attempt.reschedule
      split
      · exact settle_requested hc rfl rfl
      · cases hd : s.store.deleteTask current.name input.later with
        | error e => exact .kept rfl
        | ok store => exact deleteTask_requested hd
  · exact .kept rfl

theorem advance_requested (input : Input) (n : Bytes) (l : Thread) (s : Server) :
    Requests input n l s.store (l.advance input s).2.store := by
  cases l with
  | call c =>
    change Requests input n (.call c) s.store (Attempt.settle s (c.apply s.store input.now)).store
    cases happly : c.apply s.store input.now with
    | error e => exact .kept rfl
    | ok store =>
      rcases apply_requested happly n with h | h | ⟨t, rfl, hnone, h⟩ | ⟨rfl, hsome, h⟩
      · exact .kept h
      · exact .gone h
      · exact .made t rfl hnone h
      · exact .asked rfl hsome h
  | pass p =>
    change Requests input n (.pass p) s.store (p.advance input s).2.store
    have hstep := p.advance_step input s
    generalize (p.advance input s).1 = ls at hstep
    generalize (p.advance input s).2 = s' at hstep
    cases hstep with
    | forced fresh h =>
      have htake := s.store.takeRun_requested fresh.name fresh.runRequested n
      by_cases hname : fresh.name = n
      · refine .taken p fresh rfl h hname (htake.trans ?_)
        simp [hname]
      · exact .kept (htake.trans (if_neg fun h => hname h.1))
    | _ => exact .kept rfl
  | attempt a => exact attempt_requested input n a s

inductive RunEvent where
  | ran (now : Time)
  | forced (requested : Time)
deriving DecidableEq

def ran (h : List RunEvent) : List Time :=
  h.filterMap fun
    | .ran t => some t
    | .forced _ => none

def forced (h : List RunEvent) : List Time :=
  h.filterMap fun
    | .ran _ => none
    | .forced t => some t

@[simp] theorem ran_append (h h' : List RunEvent) : ran (h ++ h') = ran h ++ ran h' :=
  List.filterMap_append

@[simp] theorem forced_append (h h' : List RunEvent) : forced (h ++ h') = forced h ++ forced h' :=
  List.filterMap_append

def Call.shows (n : Bytes) (now : Time) (s : Store) : Call → List RunEvent
  | .runTask name => if name = n ∧ s.tasks[n]?.isSome then [.ran now] else []
  | _ => []

def Stage.shows (n : Bytes) : Stage → List RunEvent
  | .taking fresh => if fresh.name = n then [.forced fresh.runRequested] else []
  | _ => []

def Thread.shows (n : Bytes) (input : Input) (s : Store) : Thread → List RunEvent
  | .call c => c.shows n input.now s
  | .pass p => p.stage.shows n
  | .attempt _ => []

def observe (n : Bytes) : Move Thread Input → World → List RunEvent
  | .enter _, _ => []
  | .step i input, w =>
    match w.threads[i]? with
    | none => []
    | some l => l.shows n input w.shared.store

variable {w : World}

variable {r : Time}

def Unused (h : List RunEvent) (r : Time) : Prop := r = 0 ∨ r ∈ ran h ∧ r ∉ forced h

def Tracked (n : Bytes) (h : List RunEvent) : Thread → Prop
  | .call c => ∀ t, c = .createTask t → t.runRequested = 0
  | .pass p => (∀ t, p.stage = .marked t true → t.runRequested ≠ 0) ∧
      ∀ t, p.stage = .taking t → t.runRequested ≠ 0 ∧ (t.name = n → Unused h t.runRequested)
  | .attempt a => (a.task.name = n → Unused h a.task.runRequested) ∧
      ∀ c, a.phase.current = some c →
        c.name = a.task.name ∧ (c.name = n → Unused h c.runRequested)

variable {h : List RunEvent} {p : Pass}

theorem tracked_idle (hmarked : ∀ t, p.stage ≠ .marked t true) (htaking : ∀ t, p.stage ≠ .taking t) :
    Tracked n h (.pass p) :=
  ⟨fun t ht => absurd ht (hmarked t), fun t ht => absurd ht (htaking t)⟩

theorem tracked_ready (hp : p.stage = .ready) : Tracked n h (.pass p) :=
  tracked_idle (by simp [hp]) (by simp [hp])

theorem Tracked.mono {h' : List RunEvent} (hl : Tracked n h l)
    (hmono : ∀ r, Unused h r → Unused h' r) : Tracked n h' l := by
  cases l with
  | call c => exact hl
  | pass p =>
    refine ⟨hl.1, fun t ht => ?_⟩
    obtain ⟨hne, hunused⟩ := hl.2 t ht
    exact ⟨hne, fun hname => hmono _ (hunused hname)⟩
  | attempt a =>
    refine ⟨fun hname => hmono _ (hl.1 hname), fun c hc => ?_⟩
    obtain ⟨hown, hunused⟩ := hl.2 c hc
    exact ⟨hown, fun hname => hmono _ (hunused hname)⟩

theorem Tracked.elsewhere (hl : Tracked n h l) (hholds : l.holds ≠ some n) (h' : List RunEvent) : Tracked n h' l := by
  cases l with
  | call c => exact hl
  | pass p =>
    refine ⟨hl.1, fun t ht => ⟨(hl.2 t ht).1, fun hname => absurd ?_ hholds⟩⟩
    simp [Thread.holds, Thread.task, ht, Stage.task, hname]
  | attempt a =>
    have hown : a.task.name ≠ n := fun hname => hholds (by simp [Thread.holds, Thread.task, hname])
    refine ⟨fun hname => absurd hname hown, fun c hc => ?_⟩
    obtain ⟨hname, -⟩ := hl.2 c hc
    exact ⟨hname, fun hn => absurd (hname.symm.trans hn) hown⟩

theorem decision_force {w : Worker} {limit : Int} {token : Bool}
    (h : Pass.decision w t limit token = .force) : t.runRequested ≠ 0 := by
  unfold Pass.decision at h
  split_ifs at h with hrun
  exact hrun

theorem taken_same {q : Pass} {fresh : Task}
    (h : p.stage = .marked t true) (hq : Thread.pass q ∈ (p.advance input s).1)
    (hfresh : q.stage = .taking fresh) :
    fresh.runRequested = t.runRequested ∧ s.store.tasks[t.name]? = some fresh := by
  unfold Pass.advance at hq
  rw [h] at hq
  dsimp only at hq
  split at hq
  · obtain rfl : q = _ := by simpa using hq
    cases hfresh
  · next fresh' hcurrent =>
      split at hq
      · obtain rfl : q = _ := by simpa using hq
        cases hfresh
      · next hsame =>
          obtain rfl : q = _ := by simpa using hq
          cases hfresh
          exact ⟨not_not.mp hsame, current_some hcurrent⟩

theorem unused_of_task {m : Bytes} {s : Store}
    (hstored : Unused h (s.requested n)) (ht : s.tasks[m]? = some t) (hname : t.name = n) :
    Unused h t.runRequested := by
  have hm : m = n := (s.keyed m t ht).symm.trans hname
  subst hm
  rwa [Store.requested_of_task ht] at hstored

theorem pass_tracked (hp : Tracked n h (.pass p)) (hstored : Unused h (s.store.requested n)) :
    ∀ l' ∈ (p.advance input s).1, Tracked n h l' := by
  intro l' hl'
  have hstep := p.advance_step input s
  have hsame : ∀ q t fresh, p.stage = .marked t true → Thread.pass q ∈ (p.advance input s).1 →
      q.stage = .taking fresh → fresh.runRequested = t.runRequested :=
    fun _ _ _ hstage hq hfresh => (taken_same hstage hq hfresh).1
  generalize (p.advance input s).1 = ls at hstep hl' hsame
  generalize (p.advance input s).2 = s' at hstep
  cases hstep with
  | listed hstage | released t hstage =>
    cases List.mem_singleton.mp hl'
    exact tracked_ready rfl
  | finished hstage => cases hl'
  | skipped p' hstage hstage' hdue =>
    cases List.mem_singleton.mp hl'
    exact tracked_ready hstage'
  | marked t rest limit isForced hstage hdue hlimit hd =>
    cases List.mem_singleton.mp hl'
    refine ⟨fun t' ht' => ?_, fun t' ht' => by cases ht'⟩
    cases ht'
    exact decision_force hd
  | dropped t isForced hstage =>
    cases List.mem_singleton.mp hl'
    exact tracked_idle (by simp) (by simp)
  | taken t fresh hstage hfresh =>
    cases List.mem_singleton.mp hl'
    refine ⟨fun t' ht' => absurd ht' (by simp), fun t' ht' => ?_⟩
    have hrun := hsame _ t t' hstage (List.mem_singleton_self _) ht'
    cases ht'
    exact ⟨hrun ▸ hp.1 t hstage, unused_of_task hstored hfresh⟩
  | started t fresh hstage hfresh =>
    rcases List.mem_pair.mp hl' with rfl | rfl
    · exact ⟨unused_of_task hstored hfresh, fun c hc => by cases hc⟩
    · exact tracked_ready rfl
  | forced fresh hstage =>
    rcases List.mem_pair.mp hl' with rfl | rfl
    · exact ⟨fun _ => .inl rfl, fun c hc => by cases hc⟩
    · exact tracked_ready rfl

theorem attempt_tracked {a : Attempt} (ha : Tracked n h (.attempt a)) (hstored : Unused h (s.store.requested n)) :
    ∀ l' ∈ (a.advance input s).1, Tracked n h l' := by
  intro l' hl'
  have hstep := a.advance_step input s
  generalize (a.advance input s).1 = ls at hstep hl'
  generalize (a.advance input s).2 = s' at hstep
  have hover : Tracked n h (.attempt ⟨a.task, .over⟩) := ⟨ha.1, fun c hc => by cases hc⟩
  cases hstep with
  | read phase hphase hcur =>
    cases List.mem_singleton.mp hl'
    refine ⟨ha.1, fun c hc => ?_⟩
    rcases hcur c hc with hold | hread
    · exact ha.2 c hold
    · exact ⟨s.store.keyed _ c hread, unused_of_task hstored hread⟩
  | wrote phase t store hphase hcur hstore ht =>
    cases List.mem_singleton.mp hl'
    exact ⟨ha.1, fun c hc => by simp [hcur] at hc⟩
  | succeeded code status store hphase happ hcode hok hstore | exhausted current retry store hphase hno hstore =>
    cases List.mem_singleton.mp hl'
    exact hover
  | ended hphase => cases hl'

theorem advance_tracked (hl : Tracked n h l) (hstored : Unused h (s.store.requested n)) :
    ∀ l' ∈ (l.advance input s).1, Tracked n h l' := by
  cases l with
  | call c => exact fun l' hl' => by cases hl'
  | pass p => exact pass_tracked hl hstored
  | attempt a => exact attempt_tracked hl hstored

structure Accounted (n : Bytes) (w : World) (h : List RunEvent) : Prop where
  leased : w.Leased
  once : (forced h).Nodup
  asked : ∀ r ∈ forced h, r ∈ ran h
  stored : Unused h (w.shared.store.requested n)
  threads : ∀ l ∈ w.threads, Tracked n h l

def Distinct (h : List RunEvent) : Prop := (ran h).Nodup ∧ 0 ∉ ran h

theorem Distinct.left {h' : List RunEvent} (hd : Distinct (h ++ h')) : Distinct h := by
  rw [Distinct, ran_append] at hd
  exact ⟨(List.nodup_append.mp hd.1).1, fun hmem => hd.2 (List.mem_append_left _ hmem)⟩

def Plain : Move Thread Input → Prop
  | .enter l => l.Begins ∧ ∀ t, l = .call (.createTask t) → t.runRequested = 0
  | .step _ _ => True

theorem Accounted.enter
    (hw : Accounted n w h) (hl : Plain (.enter l)) : Accounted n ⟨w.shared, l :: w.threads⟩ h := by
  refine ⟨leased_enter hw.leased hl.1, hw.once, hw.asked, hw.stored, fun l' hl' => ?_⟩
  rcases List.mem_cons.mp hl' with rfl | hmem
  · cases l' with
    | call c =>
      rintro t rfl
      exact hl.2 t rfl
    | pass p =>
      obtain rfl : p = Pass.starting := hl.1
      exact tracked_idle (by simp [Pass.starting]) (by simp [Pass.starting])
    | attempt a => exact hl.1.elim
  · exact hw.threads l' hmem

theorem Unused.append {h' : List RunEvent} (hr : Unused h r) (hnew : r ∉ forced h') : Unused (h ++ h') r := by
  rcases hr with rfl | ⟨hran, hforced⟩
  · exact .inl rfl
  · exact .inr (by simp [hran, hforced, hnew])

theorem shows_quiet (s : Store) (hquiet : ∀ p fresh, l = .pass p → p.stage = .taking fresh → fresh.name ≠ n) :
    forced (l.shows n input s) = [] := by
  cases l with
  | call c =>
    cases c with
    | runTask name =>
      rw [Thread.shows, Call.shows]
      split_ifs <;> rfl
    | _ => rfl
  | pass p =>
    rw [Thread.shows]
    cases hstage : p.stage with
    | taking fresh => rw [Stage.shows, if_neg (hquiet p fresh rfl hstage)]; rfl
    | _ => rfl
  | attempt a => rfl

variable {left right : List Thread}

theorem Accounted.quiet (hw : Accounted n ⟨s, left ++ l :: right⟩ h) (hd : Distinct (h ++ l.shows n input s.store))
    (hquiet : ∀ p fresh, l = .pass p → p.stage = .taking fresh → fresh.name ≠ n) :
    Accounted n ⟨(l.advance input s).2, left ++ (l.advance input s).1 ++ right⟩
      (h ++ l.shows n input s.store) := by
  have hl : Tracked n h l := hw.threads l (by simp)
  have hnone : forced (l.shows n input s.store) = [] := shows_quiet s.store hquiet
  have hforced : forced (h ++ l.shows n input s.store) = forced h := by
    rw [forced_append, hnone, List.append_nil]
  have hran : ∀ r ∈ ran h, r ∈ ran (h ++ l.shows n input s.store) := by
    intro r hr
    rw [ran_append]
    exact List.mem_append_left _ hr
  have hmono : ∀ r, Unused h r → Unused (h ++ l.shows n input s.store) r :=
    fun r hr => hr.append (by simp [hnone])
  refine ⟨leased_advance input hw.leased, hforced ▸ hw.once, fun r hr => hran r (hw.asked r (hforced ▸ hr)),
    ?_, fun l' hl' => ?_⟩
  · cases advance_requested input n l s with
    | kept heq => exact heq ▸ hmono _ hw.stored
    | gone hnone => exact .inl (Store.requested_of_none hnone)
    | made t heq hnone hset =>
      subst heq
      exact .inl (hset.trans (hl t rfl))
    | asked heq hsome hset =>
      subst heq
      have hshow : (Thread.call (.runTask n)).shows n input s.store = [.ran input.now] :=
        if_pos ⟨rfl, hsome⟩
      rw [hset, hshow]
      rw [hshow, Distinct, ran_append] at hd
      have hfresh : input.now ∉ ran h := fun hmem =>
        (List.nodup_append.mp hd.1).2.2 _ hmem _ (List.mem_singleton_self _) rfl
      refine .inr ⟨?_, fun hmem => hfresh (hw.asked _ ?_)⟩
      · simp [ran]
      · simpa [forced] using hmem
    | written a c heq hc hname hnone hset =>
      subst heq
      rw [hset]
      refine hmono _ ?_
      rcases List.mem_cons.mp hc with rfl | hc
      · exact hl.1 hname
      · exact (hl.2 c (Option.mem_toList.mp hc)).2 hname
    | taken p fresh heq hstage hname hset => exact absurd hname (hquiet p fresh heq hstage)
  · rcases Program.mem_replaced hl' with hnew | hold
    · exact (advance_tracked hl hw.stored l' hnew).mono hmono
    · exact (hw.threads l' (Program.mem_kept hold)).mono hmono

theorem Accounted.forcing {fresh : Task}
    (hw : Accounted n ⟨s, left ++ .pass p :: right⟩ h) (hstage : p.stage = .taking fresh)
    (hname : fresh.name = n) :
    Accounted n ⟨((Thread.pass p).advance input s).2, left ++ ((Thread.pass p).advance input s).1 ++ right⟩
      (h ++ [.forced fresh.runRequested]) := by
  have hl : Tracked n h (.pass p) := hw.threads _ (by simp)
  obtain ⟨hne, hunused⟩ := hl.2 fresh hstage
  obtain ⟨hran, hfresh⟩ := (hunused hname).resolve_left hne
  have hadvance : (Thread.pass p).advance input s =
      ([.attempt ⟨{ fresh with runRequested := 0 }, .out⟩, .pass p.next],
        { s with store := s.store.takeRun fresh.name fresh.runRequested }) := by
    simp [Thread.advance, Pass.advance, hstage]
  -- the mark is this pass's, so no other thread has a copy of the task to write back
  have halone : ∀ l' ∈ left ++ right, l'.holds ≠ some n := by
    intro l' hl' hholds
    have hleased := hw.leased
    unfold World.Leased at hleased
    rw [held_middle] at hleased
    have hown : (Thread.pass p).holds = some n := by
      simp [Thread.holds, Thread.task, hstage, Stage.task, hname]
    rw [hown] at hleased
    have hout := hleased.alone
    rw [← List.filterMap_append] at hout
    exact hout (List.mem_filterMap.mpr ⟨l', hl', hholds⟩)
  refine ⟨leased_advance input hw.leased, ?_, ?_, ?_, fun l' hl' => ?_⟩
  · rw [forced_append]
    exact List.nodup_append.mpr ⟨hw.once, List.nodup_singleton _, fun r hr r' hr' heq => by
      obtain rfl : r' = fresh.runRequested := by simpa [forced] using hr'
      exact hfresh (heq ▸ hr)⟩
  · intro r hr
    rw [forced_append, List.mem_append] at hr
    rw [ran_append]
    refine List.mem_append_left _ ?_
    rcases hr with hr | hr
    · exact hw.asked r hr
    · obtain rfl : r = fresh.runRequested := by simpa [forced] using hr
      exact hran
  · rw [hadvance]
    dsimp only
    rw [Store.takeRun_requested]
    split_ifs with htaken
    · exact .inl rfl
    · exact hw.stored.append fun hmem => htaken ⟨hname, by simpa [forced] using hmem⟩
  · rcases Program.mem_replaced hl' with hnew | hold
    · rw [hadvance] at hnew
      rcases List.mem_pair.mp hnew with rfl | rfl
      · exact ⟨fun _ => .inl rfl, fun c hc => by cases hc⟩
      · exact tracked_ready rfl
    · exact (hw.threads l' (Program.mem_kept hold)).elsewhere (halone l' hold) _

theorem Accounted.step (hw : Accounted n ⟨s, left ++ l :: right⟩ h) (hd : Distinct (h ++ l.shows n input s.store)) :
    Accounted n ⟨(l.advance input s).2, left ++ (l.advance input s).1 ++ right⟩
      (h ++ l.shows n input s.store) := by
  by_cases hforces : ∃ p fresh, l = .pass p ∧ p.stage = .taking fresh ∧ fresh.name = n
  · obtain ⟨p, fresh, rfl, hstage, hname⟩ := hforces
    have hshow : (Thread.pass p).shows n input s.store = [.forced fresh.runRequested] := by
      simp [Thread.shows, Stage.shows, hstage, hname]
    rw [hshow]
    exact hw.forcing hstage hname
  · refine hw.quiet hd fun p fresh hl hstage hname => hforces ⟨p, fresh, hl, hstage, hname⟩

def Undisturbed (n : Bytes) (m : Move Thread Input) (w : World) : Prop :=
  forced (observe n m w) = [] ∧ (cloudTasks.move m w).shared.store.tasks[n]?.isSome = true

instance (n : Bytes) (m : Move Thread Input) (w : World) : Decidable (Undisturbed n m w) :=
  inferInstanceAs (Decidable (_ ∧ _))

end CloudBurrow.Tasks
