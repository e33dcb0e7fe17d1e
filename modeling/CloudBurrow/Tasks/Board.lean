import CloudBurrow.Process.Transaction
import CloudBurrow.Tasks.Worker

namespace CloudBurrow.Tasks

open Utf8 Threads Transaction.Txn

structure Order where
  name : Bytes
  queue : Bytes
  httpRequest : Option HttpRequest
  appEngineHttpRequest : Option AppEngineRequest
  serial : Nat
deriving DecidableEq

def Task.order (t : Task) : Order :=
  ⟨t.name, t.queue, t.httpRequest, t.appEngineHttpRequest, t.serial⟩

@[simp] theorem Task.order_name (t : Task) : t.order.name = t.name := rfl

namespace Store

variable {s s' : Store} {t : Task} {name n : Bytes} {now : Time}

def board (s : Store) (n : Bytes) : Option Order := (s.tasks[n]?).map Task.order

theorem board_of_task (h : s.tasks[n]? = some t) : s.board n = some t.order := by
  simp [board, h]

theorem getTask_ok (h : s.getTask name = .ok t) : s.tasks[name]? = some t := by
  unfold getTask at h
  split at h
  · cases h
  · next ht =>
      cases h
      exact ht

theorem board_put (s : Store) (t : Task) (n : Bytes) :
    (s.put t).board n = if t.name = n then some t.order else s.board n := by
  unfold board
  rw [getElem?_put]
  split_ifs <;> rfl

theorem board_without (s : Store) (gone : Bytes → Bool) (n : Bytes) :
    (s.without gone).board n = if gone n then none else s.board n := by
  unfold board
  rw [getElem?_without]
  split_ifs <;> rfl

theorem board_put_same (hs : s.tasks[n]? = some t) {t' : Task} (ho : t'.order = t.order) :
    (s.put t').board = s.board := by
  have hname : t'.name = n := by
    rw [← Task.order_name, ho, Task.order_name, s.keyed n t hs]
  funext m
  rw [board_put]
  split_ifs with hm
  · rw [← hm, hname, board_of_task hs, ho]
  · rfl

theorem createQueue_board {q : Queue} (h : s.createQueue q now = .ok s') :
    s'.board = s.board ∧ s'.created = s.created := by
  obtain ⟨_, _, h⟩ := except_bind_ok h
  split at h
  · cases h
  · cases h
    exact ⟨rfl, rfl⟩

theorem updateQueue_board {retry : RetryConfig} {limit : Int} {host : Bool}
    (h : s.updateQueue name retry limit host now = .ok s') :
    s'.board = s.board ∧ s'.created = s.created := by
  obtain ⟨_, _, h⟩ := except_bind_ok h
  cases h
  exact ⟨rfl, rfl⟩

theorem setQueueState_board {state : State} (h : s.setQueueState name state = .ok s') :
    s'.board = s.board ∧ s'.created = s.created := by
  obtain ⟨_, _, h⟩ := except_bind_ok h
  cases h
  exact ⟨rfl, rfl⟩

theorem deleteQueue_board (h : s.deleteQueue name = .ok s') (n : Bytes) :
    s'.board n = if (under name).isPrefixOf n then none else s.board n := by
  obtain ⟨_, _, h⟩ := except_bind_ok h
  cases h
  exact board_without s _ n

theorem purgeQueue_board (h : s.purgeQueue name now = .ok s') (n : Bytes) :
    s'.board n = if (under name).isPrefixOf n then none else s.board n := by
  obtain ⟨_, _, h⟩ := except_bind_ok h
  cases h
  exact board_without s _ n

theorem deleteTask_board (h : s.deleteTask name now = .ok s') (n : Bytes) :
    s'.board n = if name = n then none else s.board n := by
  obtain ⟨_, _, h⟩ := except_bind_ok h
  cases h
  change (s.without (· == name)).board n = _
  rw [board_without]
  by_cases hn : name = n
  · simp [hn]
  · have hne : (n == name) = false := beq_false_of_ne fun h' => hn h'.symm
    simp [hn, hne]

theorem deleteTask_isSome (now : Time) (h : s.tasks[name]?.isSome) :
    ∃ s', s.deleteTask name now = .ok s' := by
  obtain ⟨t, ht⟩ := Option.isSome_iff_exists.mp h
  unfold deleteTask getTask
  rw [ht]
  exact ⟨_, rfl⟩

theorem deleteTask_stored (h : s.deleteTask name now = .ok s') : ∃ t, s.tasks[name]? = some t := by
  obtain ⟨t, ht, _⟩ := except_bind_ok h
  exact ⟨t, getTask_ok ht⟩

theorem updateTask_board (h : s.updateTask t = .ok s') :
    (s.board t.name).isSome ∧ ∀ n, s'.board n = if t.name = n then some t.order else s.board n := by
  obtain ⟨stored, hstored, h⟩ := except_bind_ok h
  cases h
  refine ⟨by simp [board, getTask_ok hstored], fun n => ?_⟩
  rw [board_put]
  split_ifs <;> rfl

theorem runTask_board (h : s.runTask name now = .ok s') : s'.board = s.board := by
  obtain ⟨stored, hstored, h⟩ := except_bind_ok h
  cases h
  exact board_put_same (getTask_ok hstored) rfl

theorem takeRun_board (s : Store) (name : Bytes) (requested : Time) :
    (s.takeRun name requested).board = s.board := by
  unfold takeRun
  split
  · rfl
  · next ht =>
      split
      · exact board_put_same ht rfl
      · rfl

theorem nameFree_ok (h : s.nameFree name now = .ok ()) : s.board name = none := by
  unfold nameFree at h
  split at h
  · cases h
  all_goals next ht _ => simp [board, ht]

theorem createTask_board (h : s.createTask t now = .ok s') :
    s.board t.name = none ∧ s'.created = s.created + 1 ∧ ∃ queue, (∃ m ∈ parse t.name, queue = filing t m) ∧
      ∀ n, s'.board n = if t.name = n then some (stamped t queue s.created now).order else s.board n := by
  unfold createTask at h
  split at h
  · cases h
  · next m hm =>
      obtain ⟨_, _, h⟩ := except_bind_ok h
      obtain ⟨q, _, h⟩ := except_bind_ok h
      split at h
      · cases h
      · obtain ⟨_, hfree, h⟩ := except_bind_ok h
        cases h
        exact ⟨nameFree_ok hfree, rfl, _, ⟨m, hm, rfl⟩, fun n => board_put s _ n⟩

theorem mem_dueTasks (h : t ∈ s.dueTasks now) : s.tasks[t.name]? = some t := by
  obtain ⟨hmem, _⟩ := List.mem_filter.mp h
  obtain ⟨⟨n, t'⟩, hpair, rfl⟩ := List.mem_map.mp hmem
  have hget := Std.ExtTreeMap.mem_toList_iff_getElem?_eq_some.mp hpair
  rw [s.keyed n t' hget]
  exact hget

end Store

end CloudBurrow.Tasks
