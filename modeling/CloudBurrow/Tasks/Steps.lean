import CloudBurrow.Tasks.Board

namespace CloudBurrow.Tasks

open Utf8 Threads

def Stage.task : Stage → Option Task
  | .listing => none
  | .ready => none
  | .marked t _ => some t
  | .dropping t => some t
  | .taking fresh => some fresh

def Phase.current : Phase → Option Task
  | .fetched current => some current
  | .judged current _ => some current
  | _ => none

def Thread.task : Thread → Option Task
  | .call _ => none
  | .pass p => p.stage.task
  | .attempt a => some a.task

def Thread.holds (l : Thread) : Option Bytes := l.task.map Task.name

def Thread.known : Thread → List Task
  | .call _ => []
  | .pass p => p.stage.task.toList ++ p.due
  | .attempt a => a.task :: a.phase.current.toList

inductive PassStep (input : Input) (s : Server) (p : Pass) : List Thread → Server → Prop
  | listed (h : p.stage = .listing) : PassStep input s p
      [.pass { p with now := input.now, due := s.store.dueTasks input.now, stage := .ready }] s
  | finished (h : p.stage = .ready) : PassStep input s p [] s
  | skipped (p' : Pass) (h : p.stage = .ready) (h' : p'.stage = .ready)
      (hdue : ∀ t ∈ p'.due, t ∈ p.due) : PassStep input s p [.pass p'] s
  | marked (t : Task) (rest : List Task) (limit : Int) (forced : Bool) (h : p.stage = .ready)
      (hdue : p.due = t :: rest) (hlimit : p.limits.lookup t.queue = some limit)
      (hd : Pass.decision s.worker t limit input.token = if forced then .force else .claim) :
      PassStep input s p [.pass { p with due := rest, stage := .marked t forced }]
        { s with worker := s.worker.mark t }
  | dropped (t : Task) (forced : Bool) (h : p.stage = .marked t forced) :
      PassStep input s p [.pass { p with stage := .dropping t }] s
  | taken (t fresh : Task) (h : p.stage = .marked t true)
      (hfresh : s.store.tasks[t.name]? = some fresh) :
      PassStep input s p [.pass { p with stage := .taking fresh }] s
  | started (t fresh : Task) (h : p.stage = .marked t false)
      (hfresh : s.store.tasks[t.name]? = some fresh) :
      PassStep input s p [.attempt ⟨fresh, .out⟩, .pass p.next] s
  | released (t : Task) (h : p.stage = .dropping t) :
      PassStep input s p [.pass p.next] { s with worker := s.worker.release t }
  | forced (fresh : Task) (h : p.stage = .taking fresh) : PassStep input s p
      [.attempt ⟨{ fresh with runRequested := 0 }, .out⟩, .pass p.next]
      { s with store := s.store.takeRun fresh.name fresh.runRequested }

theorem current_some {s : Store} {name : Bytes} {now : Time} {t : Task}
    (h : Pass.current s name now = some t) : s.tasks[name]? = some t := by
  unfold Pass.current at h
  split at h
  · cases h
  · next ht =>
      split_ifs at h
      cases h
      exact ht

theorem Pass.advance_step (input : Input) (s : Server) (p : Pass) :
    PassStep input s p (p.advance input s).1 (p.advance input s).2 := by
  unfold Pass.advance
  split
  · next h => exact .listed h
  · next h =>
      split
      · exact .finished h
      · next t rest hdue =>
          split
          · exact .finished h
          · split
            · exact .skipped _ h h fun _ ht => ht
            · next limit hlimit =>
                split
                · refine .skipped _ h h fun t' ht' => ?_
                  rw [hdue]
                  exact List.mem_cons_of_mem t ht'
                · next hd => exact .marked t rest limit true h hdue hlimit hd
                · next hd => exact .marked t rest limit false h hdue hlimit hd
  · next t h =>
      split
      · exact .dropped t true h
      · next fresh hcur =>
          split
          · exact .dropped t true h
          · exact .taken t fresh h (current_some hcur)
  · next t h =>
      split
      · exact .dropped t false h
      · next fresh hcur => exact .started t fresh h (current_some hcur)
  · next t h => exact .released t h
  · next fresh h => exact .forced fresh h

inductive AttemptStep (input : Input) (s : Server) (a : Attempt) : List Thread → Server → Prop
  | read (phase : Phase) (h : a.phase ≠ .over)
      (hcur : ∀ c, phase.current = some c →
        a.phase.current = some c ∨ s.store.tasks[a.task.name]? = some c) :
      AttemptStep input s a [.attempt ⟨a.task, phase⟩] s
  | wrote (phase : Phase) (t : Task) (store : Store) (h : a.phase ≠ .over)
      (hcur : phase.current = none) (hstore : s.store.updateTask t = .ok store)
      (ht : t.order = a.task.order ∨ ∃ c, a.phase.current = some c ∧ t.order = c.order) :
      AttemptStep input s a [.attempt ⟨a.task, phase⟩] { s with store := store }
  | succeeded (code : Nat) (status : Bytes) (store : Store) (h : a.phase = .out)
      (happ : (a.task.appEngineHttpRequest.isSome && !input.appEngine) = false)
      (hcode : input.answer = .response code status) (hok : Attempt.succeeded code = true)
      (hstore : s.store.deleteTask a.task.name input.later = .ok store) :
      AttemptStep input s a [.attempt ⟨a.task, .over⟩] { s with store := store }
  | exhausted (current : Task) (retry : RetryConfig) (store : Store)
      (h : a.phase = .judged current retry)
      (hover : retry.shouldRetryAfter current.dispatchCount (input.now - current.firstAttempt) = false)
      (hstore : s.store.deleteTask current.name input.later = .ok store) :
      AttemptStep input s a [.attempt ⟨a.task, .over⟩] { s with store := store }
  | ended (h : a.phase = .over) :
      AttemptStep input s a [] { s with worker := s.worker.release a.task }

theorem AttemptStep.settled {input : Input} {s : Server} {a : Attempt} {phase : Phase} {t : Task}
    (h : a.phase ≠ .over) (hcur : phase.current = none)
    (ht : t.order = a.task.order ∨ ∃ c, a.phase.current = some c ∧ t.order = c.order) :
    AttemptStep input s a [.attempt ⟨a.task, phase⟩] (Attempt.settle s (s.store.updateTask t)) := by
  cases hu : s.store.updateTask t with
  | error e => exact .read phase h fun c hc => by simp [hcur] at hc
  | ok store => exact .wrote phase t store h hcur hu ht

theorem Attempt.dispatch_step (input : Input) (s : Server) (a : Attempt) (h : a.phase = .out) :
    AttemptStep input s a (a.dispatch input s).1 (a.dispatch input s).2 := by
  have hover : a.phase ≠ .over := by simp [h]
  have hnone : Phase.current .failed = none := rfl
  unfold Attempt.dispatch
  dsimp only
  split
  · exact .settled hover hnone (.inl rfl)
  · exact .read _ hover fun c hc => by simp [hnone] at hc
  · exact .settled hover hnone (.inl rfl)
  · next code status happ hcode =>
      split
      · next hok =>
          split
          · next store hstore => exact .succeeded code status store h happ hcode hok hstore
          · exact .read _ hover fun c hc => by simp [hnone] at hc
      · exact .settled hover hnone (.inl rfl)

theorem Attempt.advance_step (input : Input) (s : Server) (a : Attempt) :
    AttemptStep input s a (a.advance input s).1 (a.advance input s).2 := by
  have hdone : Phase.current .over = none := rfl
  unfold Attempt.advance
  split
  · next h => exact Attempt.dispatch_step input s a h
  · next h =>
      have hover : a.phase ≠ .over := by simp [h]
      split
      · next current hget =>
          refine .read _ hover fun c hc => .inr ?_
          cases hc
          exact Store.getTask_ok hget
      · exact .read _ hover fun c hc => by simp [hdone] at hc
  · next current h =>
      have hover : a.phase ≠ .over := by simp [h]
      split
      · refine .read _ hover fun c hc => .inl ?_
        cases hc
        simp [h, Phase.current]
      · exact .read _ hover fun c hc => by simp [hdone] at hc
  · next current retry h =>
      have hover : a.phase ≠ .over := by simp [h]
      unfold Attempt.reschedule
      split
      · exact .settled hover hdone (.inr ⟨current, by simp [h, Phase.current], rfl⟩)
      · next hno =>
          cases hd : s.store.deleteTask current.name input.later with
          | error e => exact .read _ hover fun c hc => by simp [hdone] at hc
          | ok store => exact .exhausted current retry store h (by simpa using hno) hd
  · next h => exact .ended h

end CloudBurrow.Tasks
