import CloudBurrow.Tasks.Steps

namespace CloudBurrow.Tasks

open Utf8 Threads

def World.held (w : World) : List Bytes := w.threads.filterMap Thread.holds

variable {t : Task}

theorem decision_free {w : Worker} {limit : Int} {token : Bool}
    (h : Pass.decision w t limit token ≠ .skip) : t.name ∉ w.inflight := by
  unfold Pass.decision at h
  split_ifs at h with hrun hmem hbusy htoken
  · exact absurd rfl h
  · exact hmem
  · exact absurd rfl h
  · exact fun hmem => hbusy (.inl hmem)
  · exact absurd rfl h

structure Trade (l : Thread) (s : Server) (ls : List Thread) (s' : Server) (c : Change Bytes) : Prop where
  before : c.before = l.holds
  after : ls.filterMap Thread.holds = c.after
  marks : s'.worker.inflight = c.marks s.worker.inflight
  free : c.Free s.worker.inflight
  counts : ∀ home : Bytes → Bytes, (∀ t ∈ l.known, t.queue = home t.name) →
    s'.worker.perQueue = c.counts home s.worker.perQueue

variable {l : Thread} {s s' : Server} {ls : List Thread}

theorem Trade.keep {o : Option Bytes}
    (hl : l.holds = o) (hls : ls.filterMap Thread.holds = o.toList) (hw : s'.worker = s.worker) :
    Trade l s ls s' (.keep o) where
  before := hl.symm
  after := hls
  marks := by rw [hw]; rfl
  free := trivial
  counts := fun _ _ => by rw [hw]; rfl

theorem Trade.take (hl : l.holds = none) (hls : ls.filterMap Thread.holds = [t.name]) (ht : t ∈ l.known)
    (hfree : t.name ∉ s.worker.inflight) :
    Trade l s ls { s with worker := s.worker.mark t } (.take t.name) where
  before := hl.symm
  after := hls
  marks := rfl
  free := hfree
  counts := fun home hhome => by
    change Function.update _ t.queue _ = Function.update _ (home t.name) _
    rw [hhome t ht]

theorem Trade.drop (hl : l.holds = some t.name) (hls : ls.filterMap Thread.holds = []) (ht : t ∈ l.known) :
    Trade l s ls { s with worker := s.worker.release t } (.drop t.name) where
  before := hl.symm
  after := hls
  marks := rfl
  free := trivial
  counts := fun home hhome => by
    change Function.update _ t.queue _ = Function.update _ (home t.name) _
    rw [hhome t ht]

theorem holds_pass {p : Pass} {stage : Stage} (h : p.stage = stage) :
    (Thread.pass p).holds = stage.task.map Task.name := by
  rw [← h]
  rfl

variable {input : Input}

theorem pass_trade {p : Pass} (h : PassStep input s p ls s') : ∃ c, Trade (.pass p) s ls s' c := by
  cases h with
  | listed h | finished h | dropped t forced h | forced fresh h => exact ⟨_, .keep (holds_pass h) rfl rfl⟩
  | skipped p' h h' hdue =>
    refine ⟨_, .keep (holds_pass h) ?_ rfl⟩
    simp [Thread.holds, Thread.task, h', Stage.task]
  | marked t rest limit forced h hdue hlimit hd =>
    have hset : Pass.decision s.worker t limit input.token ≠ .skip := by
      rw [hd]
      cases forced <;> simp
    exact ⟨_, .take (holds_pass h) rfl (by simp [Thread.known, hdue]) (decision_free hset)⟩
  | taken t fresh h hfresh =>
    have hname := s.store.keyed t.name fresh hfresh
    refine ⟨_, .keep (holds_pass h) ?_ rfl⟩
    simp [Thread.holds, Thread.task, Stage.task, hname]
  | started t fresh h hfresh =>
    have hname := s.store.keyed t.name fresh hfresh
    refine ⟨_, .keep (holds_pass h) ?_ rfl⟩
    simp [Thread.holds, Thread.task, Stage.task, Pass.next, hname]
  | released t h =>
    refine ⟨_, .drop (holds_pass h) rfl ?_⟩
    simp [Thread.known, h, Stage.task]

theorem attempt_trade {a : Attempt} (h : AttemptStep input s a ls s') : ∃ c, Trade (.attempt a) s ls s' c := by
  cases h with
  | read phase h hcur | wrote phase t store h hcur hstore ht
  | succeeded code status store h happ hcode hok hstore | exhausted current retry store h hover hstore =>
    exact ⟨_, .keep rfl rfl rfl⟩
  | ended h => exact ⟨_, .drop rfl rfl List.mem_cons_self⟩

theorem settle_worker (s : Server) (result : Except Refusal Store) :
    (Attempt.settle s result).worker = s.worker := by
  cases result <;> rfl

theorem Thread.advance_trade (input : Input) (l : Thread) (s : Server) :
    ∃ c, Trade l s (l.advance input s).1 (l.advance input s).2 c := by
  cases l with
  | call c => exact ⟨_, .keep rfl rfl (settle_worker s _)⟩
  | pass p => exact pass_trade (p.advance_step input s)
  | attempt a => exact attempt_trade (a.advance_step input s)

theorem held_append (s : Server) (left ls right : List Thread) : World.held ⟨s, left ++ ls ++ right⟩ =
      left.filterMap Thread.holds ++ ls.filterMap Thread.holds ++ right.filterMap Thread.holds := by
  simp [World.held, List.filterMap_append]

theorem held_middle (s : Server) (left : List Thread) (l : Thread) (right : List Thread) :
    World.held ⟨s, left ++ l :: right⟩ =
      left.filterMap Thread.holds ++ l.holds.toList ++ right.filterMap Thread.holds := by
  cases h : l.holds <;> simp [World.held, List.filterMap_append, h]

theorem holds_of_begins (h : l.Begins) : l.holds = none := by
  cases l with
  | call c => rfl
  | pass p =>
    obtain rfl : p = Pass.starting := h
    rfl
  | attempt a => exact h.elim

def World.Leased (w : World) : Prop := Threads.Leased w.shared.worker.inflight w.held

theorem leased_enter {w : World} (hw : w.Leased) (hl : l.Begins) : World.Leased ⟨w.shared, l :: w.threads⟩ := by
  have hheld : World.held ⟨w.shared, l :: w.threads⟩ = World.held w := by
    simp [World.held, holds_of_begins hl]
  unfold World.Leased at hw ⊢
  rwa [hheld]

theorem leased_advance {left right : List Thread} (input : Input) (h : World.Leased ⟨s, left ++ l :: right⟩) :
    World.Leased ⟨(l.advance input s).2, left ++ (l.advance input s).1 ++ right⟩ := by
  obtain ⟨c, hc⟩ := l.advance_trade input s
  unfold World.Leased at h ⊢
  rw [held_middle, ← hc.before] at h
  rw [held_append]
  change Threads.Leased (l.advance input s).2.worker.inflight
    (_ ++ (l.advance input s).1.filterMap Thread.holds ++ _)
  rw [hc.marks, hc.after]
  exact h.change hc.free

def Call.Files (home : Bytes → Bytes) : Call → Prop
  | .createTask t => ∀ n ∈ parse t.name, Store.filing t n = home t.name
  | _ => True

def Thread.Files (home : Bytes → Bytes) : Thread → Prop
  | .call c => c.Files home
  | _ => True

def Files (home : Bytes → Bytes) : Move Thread Input → Prop
  | .enter l => l.Begins ∧ l.Files home
  | .step _ _ => True

def Thread.Creates (n : Bytes) (input : Input) (s : Server) (l : Thread) : Prop :=
  ∃ t, l = .call (.createTask t) ∧ t.name = n ∧ ∃ store, s.store.createTask t input.now = .ok store

theorem apply_board {c : Call} {s s' : Store} {now : Time} (h : c.apply s now = .ok s')
    {n : Bytes} {o : Order} (ho : s'.board n = some o) : s.board n = some o ∨
      ∃ t, c = .createTask t ∧ t.name = n ∧ ∀ home, c.Files home → o.queue = home o.name := by
  cases c with
  | createQueue q => exact .inl (by rwa [(Store.createQueue_board h).1] at ho)
  | updateQueue name retry limit host => exact .inl (by rwa [(Store.updateQueue_board h).1] at ho)
  | setQueueState name state => exact .inl (by rwa [(Store.setQueueState_board h).1] at ho)
  | deleteQueue name =>
    rw [Store.deleteQueue_board h] at ho
    split_ifs at ho
    exact .inl ho
  | purgeQueue name =>
    rw [Store.purgeQueue_board h] at ho
    split_ifs at ho
    exact .inl ho
  | createTask t =>
    obtain ⟨_, _, _, ⟨m, hm, rfl⟩, hboard⟩ := Store.createTask_board h
    rw [hboard] at ho
    split_ifs at ho with hn
    · cases ho
      exact .inr ⟨t, rfl, hn, fun home hfiles => hfiles m hm⟩
    · exact .inl ho
  | deleteTask name =>
    rw [Store.deleteTask_board h] at ho
    split_ifs at ho
    exact .inl ho
  | runTask name => exact .inl (by rwa [Store.runTask_board h] at ho)

theorem advance_board {n : Bytes} {o : Order} (ho : (l.advance input s).2.store.board n = some o) :
    s.store.board n = some o ∨ ((s.store.board n).isSome ∧ ∃ t ∈ l.known, t.order = o) ∨
      (l.Creates n input s ∧ ∀ home, l.Files home → o.queue = home o.name) := by
  cases l with
  | call c =>
    change (Attempt.settle s (c.apply s.store input.now)).store.board n = some o at ho
    cases happly : c.apply s.store input.now with
    | error e =>
      rw [happly] at ho
      exact .inl ho
    | ok store =>
      rw [happly] at ho
      rcases apply_board happly ho with h | ⟨t, rfl, hn, hfiles⟩
      · exact .inl h
      · exact .inr (.inr ⟨⟨t, rfl, hn, store, happly⟩, hfiles⟩)
  | pass p =>
    refine .inl ?_
    change (p.advance input s).2.store.board n = some o at ho
    have hstep := p.advance_step input s
    generalize (p.advance input s).1 = ls at hstep
    generalize (p.advance input s).2 = s' at hstep ho
    cases hstep with
    | forced fresh h => rwa [Store.takeRun_board] at ho
    | _ => exact ho
  | attempt a =>
    change (a.advance input s).2.store.board n = some o at ho
    have hstep := a.advance_step input s
    generalize (a.advance input s).1 = ls at hstep
    generalize (a.advance input s).2 = s' at hstep ho
    cases hstep with
    | read phase h hcur | ended h => exact .inl ho
    | wrote phase t store h hcur hstore ht =>
      obtain ⟨hsome, hboard⟩ := Store.updateTask_board hstore
      dsimp only at ho
      rw [hboard n] at ho
      split_ifs at ho with hn
      · cases ho
        refine .inr (.inl ⟨hn ▸ hsome, ?_⟩)
        rcases ht with ht | ⟨c, hc, ht⟩
        · exact ⟨a.task, List.mem_cons_self, ht.symm⟩
        · exact ⟨c, by simp [Thread.known, hc], ht.symm⟩
      · exact .inl ho
    | succeeded code status store h happ hcode hok hstore | exhausted current retry store h hover hstore =>
      rw [Store.deleteTask_board hstore] at ho
      split_ifs at ho
      exact .inl ho

end CloudBurrow.Tasks
