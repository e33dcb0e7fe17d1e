import CloudBurrow.Tasks.Exclusive

namespace CloudBurrow.Tasks

open Utf8 Threads

def Thread.copies : Thread → List Task
  | .pass ⟨_, _, _, .taking fresh⟩ => [fresh]
  | .attempt a => a.task :: a.phase.current.toList
  | _ => []

def Agrees (s : Server) (l : Thread) : Prop :=
  ∀ t ∈ l.copies, l.holds = some t.name ∧ ∀ o, s.store.board t.name = some o → o = t.order

def Call.Spaced (s : Server) : Call → Prop
  | .createTask t => t.name ∈ s.worker.inflight → (s.store.tasks[t.name]?).isSome
  | _ => True

instance (s : Server) : DecidablePred (Call.Spaced s)
  | .createTask t => inferInstanceAs
      (Decidable (t.name ∈ s.worker.inflight → (s.store.tasks[t.name]?).isSome))
  | .createQueue _ | .updateQueue _ _ _ _ | .setQueueState _ _ | .deleteQueue _ | .purgeQueue _
  | .deleteTask _ | .runTask _ => .isTrue trivial

def Thread.Spaced (s : Server) : Thread → Prop
  | .call c => c.Spaced s
  | _ => True

instance (s : Server) : DecidablePred (Thread.Spaced s)
  | .call c => inferInstanceAs (Decidable (c.Spaced s))
  | .pass _ => .isTrue trivial
  | .attempt _ => .isTrue trivial

def Spaced : Move Thread Input → World → Prop
  | .enter l, _ => l.Begins
  | .step i _, w => ∀ l ∈ w.threads[i]?, l.Spaced w.shared

instance : ∀ m w, Decidable (Spaced m w)
  | .enter l, _ => inferInstanceAs (Decidable l.Begins)
  | .step i _, w => inferInstanceAs (Decidable (∀ l ∈ w.threads[i]?, l.Spaced w.shared))

variable {p : Pass}

theorem copies_taking {fresh : Task} (h : p.stage = .taking fresh) : (Thread.pass p).copies = [fresh] := by
  obtain ⟨now, due, limits, stage⟩ := p
  cases h
  rfl

theorem copies_pass (h : ∀ fresh, p.stage ≠ .taking fresh) : (Thread.pass p).copies = [] := by
  obtain ⟨now, due, limits, stage⟩ := p
  cases stage with
  | taking fresh => exact absurd rfl (h fresh)
  | _ => rfl

variable {s : Server}

theorem agrees_pass (h : ∀ fresh, p.stage ≠ .taking fresh) : Agrees s (.pass p) := by
  intro t ht
  rw [copies_pass h] at ht
  cases ht

variable {s' : Server} {l : Thread}

theorem updateTask_same {s s' : Store} {t : Task} (h : s.updateTask t = .ok s')
    (ht : ∀ o, s.board t.name = some o → o = t.order) : s'.board = s.board := by
  obtain ⟨hsome, hboard⟩ := Store.updateTask_board h
  obtain ⟨o, ho⟩ := Option.isSome_iff_exists.mp hsome
  funext n
  rw [hboard n]
  split_ifs with hn
  · rw [← hn, ho, ht o ho]
  · rfl

variable {input : Input}

theorem pass_agrees {ls : List Thread} (h : PassStep input s p ls s') (hp : Agrees s (.pass p)) :
    s'.store.board = s.store.board ∧ ∀ l' ∈ ls, Agrees s' l' := by
  have hread : ∀ (n : Bytes) (fresh : Task), s.store.tasks[n]? = some fresh →
      ∀ o, s.store.board fresh.name = some o → o = fresh.order := by
    intro n fresh hfresh o ho
    rw [s.store.keyed n fresh hfresh, Store.board_of_task hfresh] at ho
    exact (Option.some_inj.mp ho).symm
  have hnext : ∀ s : Server, Agrees s (.pass p.next) := fun s => agrees_pass (by simp [Pass.next])
  cases h with
  | listed h | marked t rest limit forced h hdue hlimit hd | dropped t forced h => simp [agrees_pass]
  | finished h => simp
  | skipped p' h h' hdue => simp [agrees_pass, h']
  | taken t fresh h hfresh =>
    refine ⟨rfl, fun l' hl' t' ht' => ?_⟩
    cases List.mem_singleton.mp hl'
    obtain rfl : t' = fresh := by simpa [Thread.copies] using ht'
    exact ⟨rfl, hread _ _ hfresh⟩
  | started t fresh h hfresh =>
    refine ⟨rfl, fun l' hl' => ?_⟩
    rcases List.mem_pair.mp hl' with rfl | rfl
    · intro t' ht'
      obtain rfl : t' = fresh := by simpa [Thread.copies, Phase.current] using ht'
      exact ⟨rfl, hread _ _ hfresh⟩
    · exact hnext s
  | released t h =>
    refine ⟨rfl, fun l' hl' => ?_⟩
    cases List.mem_singleton.mp hl'
    exact hnext _
  | forced fresh h =>
    have hboard := s.store.takeRun_board fresh.name fresh.runRequested
    refine ⟨hboard, fun l' hl' => ?_⟩
    rcases List.mem_pair.mp hl' with rfl | rfl
    · intro t' ht'
      obtain rfl : t' = { fresh with runRequested := 0 } := by
        simpa [Thread.copies, Phase.current] using ht'
      refine ⟨rfl, fun o ho => ?_⟩
      rw [hboard] at ho
      exact (hp fresh (by simp [copies_taking h])).2 o ho
    · exact hnext _

inductive Ends (input : Input) (a : Attempt) : Prop
  | answered (code : Nat) (status : Bytes) (phase : a.phase = .out)
      (answer : input.answer = .response code status) (ok : Attempt.succeeded code = true)
  | exhausted (current : Task) (retry : RetryConfig) (phase : a.phase = .judged current retry)
      (own : current.order = a.task.order)
      (spent : retry.shouldRetryAfter current.dispatchCount
        (input.now - current.firstAttempt) = false)

theorem attempt_agrees {a : Attempt} {ls : List Thread}
    (h : AttemptStep input s a ls s') (ha : Agrees s (.attempt a)) :
    (s'.store.board = s.store.board ∨ Ends input a ∧ ∀ n, s'.store.board n =
      if a.task.name = n then none else s.store.board n) ∧ ∀ l' ∈ ls, Agrees s' l' := by
  have hown := ha a.task List.mem_cons_self
  have hover : ∀ s' : Server, (∀ n o, s'.store.board n = some o → s.store.board n = some o) →
      ∀ phase : Phase, phase.current = none → Agrees s' (.attempt ⟨a.task, phase⟩) := by
    intro s' hs' phase hphase t ht
    obtain rfl : t = a.task := by simpa [Thread.copies, hphase] using ht
    exact ⟨rfl, fun o ho => hown.2 o (hs' _ o ho)⟩
  have hless : ∀ (store : Store) (n : Bytes), (∀ m, store.board m =
      if n = m then none else s.store.board m) → ∀ m o, store.board m = some o →
      s.store.board m = some o := by
    intro store n hboard m o ho
    rw [hboard m] at ho
    split_ifs at ho
    exact ho
  cases h with
  | read phase h hcur =>
    refine ⟨.inl rfl, fun l' hl' t ht => ?_⟩
    cases List.mem_singleton.mp hl'
    rcases List.mem_cons.mp ht with rfl | ht
    · exact ⟨rfl, hown.2⟩
    · rcases hcur t (Option.mem_toList.mp ht) with hold | hnew
      · exact ⟨(ha t (by simp [Thread.copies, hold])).1, (ha t (by simp [Thread.copies, hold])).2⟩
      · have hname := s.store.keyed _ _ hnew
        refine ⟨by simp [Thread.holds, Thread.task, hname], fun o ho => ?_⟩
        rw [hname, Store.board_of_task hnew] at ho
        exact (Option.some_inj.mp ho).symm
  | wrote phase t store h hcur hstore ht =>
    have hsame : store.board = s.store.board := by
      refine updateTask_same hstore fun o ho => ?_
      rcases ht with ht | ⟨c, hc, ht⟩
      · rw [← Task.order_name, ht, Task.order_name] at ho
        rw [ht]
        exact hown.2 o ho
      · rw [← Task.order_name, ht, Task.order_name] at ho
        rw [ht]
        exact (ha c (by simp [Thread.copies, hc])).2 o ho
    refine ⟨.inl hsame, fun l' hl' => ?_⟩
    cases List.mem_singleton.mp hl'
    exact hover _ (fun n o ho => by rwa [hsame] at ho) phase hcur
  | succeeded code status store h happ hcode hok hstore =>
    have hboard := Store.deleteTask_board hstore
    refine ⟨.inr ⟨.answered code status h hcode hok, hboard⟩, fun l' hl' => ?_⟩
    cases List.mem_singleton.mp hl'
    exact hover _ (hless store _ hboard) .over rfl
  | exhausted current retry store h hno hstore =>
    have hcur : current ∈ (Thread.attempt a).copies := by simp [Thread.copies, h, Phase.current]
    have hname : a.task.name = current.name := by
      have := (ha current hcur).1
      simpa [Thread.holds, Thread.task] using this
    have hsame : current.order = a.task.order := by
      obtain ⟨t, ht⟩ := Store.deleteTask_stored hstore
      have hstored := Store.board_of_task ht
      rw [← (ha current hcur).2 _ hstored]
      exact hown.2 _ (hname ▸ hstored)
    have hboard := Store.deleteTask_board hstore
    rw [← hname] at hboard
    refine ⟨.inr ⟨.exhausted current retry h hsame hno, hboard⟩, fun l' hl' => ?_⟩
    cases List.mem_singleton.mp hl'
    exact hover _ (hless store _ hboard) .over rfl
  | ended h => exact ⟨.inl rfl, by simp⟩

inductive Settles (o : Order) (w : World) : Move Thread Input → Prop
  | attempt {i : Nat} {input : Input} {a : Attempt} (thread : w.threads[i]? = some (.attempt a))
      (own : a.task.order = o) (ends : Ends input a) : Settles o w (.step i input)
  | deleted {i : Nat} {input : Input} (thread : w.threads[i]? = some (.call (.deleteTask o.name))) :
      Settles o w (.step i input)
  | purged {i : Nat} {input : Input} {queue : Bytes}
      (thread : w.threads[i]? = some (.call (.purgeQueue queue)))
      (covers : under queue <+: o.name) : Settles o w (.step i input)
  | dropped {i : Nat} {input : Input} {queue : Bytes}
      (thread : w.threads[i]? = some (.call (.deleteQueue queue)))
      (covers : under queue <+: o.name) : Settles o w (.step i input)

variable {o : Order}

theorem apply_keeps {c : Call} {s s' : Store} {now : Time} (h : c.apply s now = .ok s') (ho : s.board o.name = some o) :
    s'.board o.name = some o ∨ c = .deleteTask o.name ∨
      ∃ queue, (c = .purgeQueue queue ∨ c = .deleteQueue queue) ∧ under queue <+: o.name := by
  cases c with
  | createQueue q => exact .inl (by rw [(Store.createQueue_board h).1, ho])
  | updateQueue name retry limit host => exact .inl (by rw [(Store.updateQueue_board h).1, ho])
  | setQueueState name state => exact .inl (by rw [(Store.setQueueState_board h).1, ho])
  | deleteQueue name =>
    rw [Store.deleteQueue_board h]
    split_ifs with hunder
    · exact .inr (.inr ⟨name, .inr rfl, List.isPrefixOf_iff_prefix.mp hunder⟩)
    · exact .inl ho
  | purgeQueue name =>
    rw [Store.purgeQueue_board h]
    split_ifs with hunder
    · exact .inr (.inr ⟨name, .inl rfl, List.isPrefixOf_iff_prefix.mp hunder⟩)
    · exact .inl ho
  | createTask t =>
    obtain ⟨hfree, _, queue, _, hboard⟩ := Store.createTask_board h
    rw [hboard]
    split_ifs with hn
    · rw [hn, ho] at hfree
      cases hfree
    · exact .inl ho
  | deleteTask name =>
    rw [Store.deleteTask_board h]
    split_ifs with hn
    · exact .inr (.inl (by rw [hn]))
    · exact .inl ho
  | runTask name => exact .inl (by rw [Store.runTask_board h, ho])

theorem advance_keeps {w : World} {i : Nat} (hget : w.threads[i]? = some l) (hl : Agrees w.shared l)
    (ho : w.shared.store.board o.name = some o) :
    (l.advance input w.shared).2.store.board o.name = some o ∨ Settles o w (.step i input) := by
  cases l with
  | call c =>
    change (Attempt.settle w.shared (c.apply w.shared.store input.now)).store.board _ = _ ∨ _
    cases happly : c.apply w.shared.store input.now with
    | error e => exact .inl ho
    | ok store =>
      rcases apply_keeps happly ho with hkept | rfl | ⟨queue, rfl | rfl, hunder⟩
      · exact .inl hkept
      · exact .inr (.deleted hget)
      · exact .inr (.purged hget hunder)
      · exact .inr (.dropped hget hunder)
  | pass p =>
    refine .inl ?_
    change (p.advance input w.shared).2.store.board _ = _
    rw [(pass_agrees (p.advance_step input w.shared) hl).1, ho]
  | attempt a =>
    change (a.advance input w.shared).2.store.board _ = _ ∨ _
    rcases (attempt_agrees (a.advance_step input w.shared) hl).1 with hsame | ⟨hends, hboard⟩
    · exact .inl (by rw [hsame, ho])
    · rw [hboard]
      split_ifs with hn
      · have hown := (hl a.task List.mem_cons_self).2 o (hn ▸ ho)
        exact .inr (.attempt hget hown.symm hends)
      · exact .inl ho

variable {store : Store}

def firstTask : Task := plainTask welcomeTask mailQueue (ascii "first")

def secondTask : Task := plainTask welcomeTask mailQueue (ascii "second")

def started : List (Move Thread Input) :=
  [.enter (.call (.createQueue (plainQueue mailQueue))), .step 0 { now := 1 },
    .enter (.call (.createTask firstTask)), .step 0 { now := 2 },
    .enter (.pass .starting), .step 0 { now := 5 }, .step 0 {}, .step 0 {}, .step 0 {}]

def replaced : List (Move Thread Input) :=
  started ++ [.enter (.call (.purgeQueue mailQueue)), .step 0 { now := 6 },
    .enter (.call (.createTask secondTask)), .step 0 { now := 7 }]

def answering (code : Nat) : Move Thread Input := .step 0 { now := 8, answer := .response code [] }

end CloudBurrow.Tasks
