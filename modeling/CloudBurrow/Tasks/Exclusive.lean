import CloudBurrow.Tasks.Leases

namespace CloudBurrow.Tasks

open Utf8 Threads

variable {input : Input} {s s' : Server} {p : Pass} {ls : List Thread}

theorem pass_known (h : PassStep input s p ls s') : ∀ l' ∈ ls, (∀ home, l'.Files home) ∧ ∀ t ∈ l'.known,
      (∃ t' ∈ (Thread.pass p).known, t'.order = t.order) ∨ ∃ n, s.store.board n = some t.order := by
  intro l' hl'
  cases h with
  | listed h =>
    cases List.mem_singleton.mp hl'
    refine ⟨fun _ => trivial, fun t ht => .inr ⟨t.name, ?_⟩⟩
    have hdue : t ∈ s.store.dueTasks input.now := by simpa [Thread.known, Stage.task] using ht
    exact Store.board_of_task (Store.mem_dueTasks hdue)
  | finished h => cases hl'
  | skipped p' h h' hdue =>
    cases List.mem_singleton.mp hl'
    refine ⟨fun _ => trivial, fun t ht => .inl ⟨t, ?_, rfl⟩⟩
    have ht' : t ∈ p'.due := by simpa [Thread.known, h', Stage.task] using ht
    exact List.mem_append_right _ (hdue t ht')
  | marked t rest limit forced h hdue hlimit hd =>
    cases List.mem_singleton.mp hl'
    refine ⟨fun _ => trivial, fun t' ht' => .inl ⟨t', ?_, rfl⟩⟩
    simpa [Thread.known, h, hdue, Stage.task] using ht'
  | dropped t forced h =>
    cases List.mem_singleton.mp hl'
    refine ⟨fun _ => trivial, fun t' ht' => .inl ⟨t', ?_, rfl⟩⟩
    simpa [Thread.known, h, Stage.task] using ht'
  | taken t fresh h hfresh =>
    cases List.mem_singleton.mp hl'
    refine ⟨fun _ => trivial, fun t' ht' => ?_⟩
    rcases List.mem_append.mp ht' with ht' | ht'
    · obtain rfl : t' = fresh := by simpa [Stage.task] using ht'
      exact .inr ⟨t.name, Store.board_of_task hfresh⟩
    · exact .inl ⟨t', List.mem_append_right _ ht', rfl⟩
  | started t fresh h hfresh =>
    rcases List.mem_pair.mp hl' with rfl | rfl
    · refine ⟨fun _ => trivial, fun t' ht' => .inr ⟨t.name, ?_⟩⟩
      obtain rfl : t' = fresh := by simpa [Thread.known, Phase.current] using ht'
      exact Store.board_of_task hfresh
    · refine ⟨fun _ => trivial, fun t' ht' => .inl ⟨t', List.mem_append_right _ ?_, rfl⟩⟩
      simpa [Thread.known, Pass.next, Stage.task] using ht'
  | released t h =>
    cases List.mem_singleton.mp hl'
    refine ⟨fun _ => trivial, fun t' ht' => .inl ⟨t', List.mem_append_right _ ?_, rfl⟩⟩
    simpa [Thread.known, Pass.next, Stage.task] using ht'
  | forced fresh h =>
    rcases List.mem_pair.mp hl' with rfl | rfl
    · refine ⟨fun _ => trivial, fun t' ht' => .inl ⟨fresh, by simp [Thread.known, h, Stage.task], ?_⟩⟩
      obtain rfl : t' = { fresh with runRequested := 0 } := by
        simpa [Thread.known, Phase.current] using ht'
      rfl
    · refine ⟨fun _ => trivial, fun t' ht' => .inl ⟨t', List.mem_append_right _ ?_, rfl⟩⟩
      simpa [Thread.known, Pass.next, Stage.task] using ht'

theorem attempt_known {a : Attempt} (h : AttemptStep input s a ls s') : ∀ l' ∈ ls, (∀ home, l'.Files home) ∧ ∀ t ∈ l'.known,
      (∃ t' ∈ (Thread.attempt a).known, t'.order = t.order) ∨ ∃ n, s.store.board n = some t.order := by
  intro l' hl'
  have hown : ∀ phase : Phase, (∀ c, phase.current = some c →
      a.phase.current = some c ∨ s.store.tasks[a.task.name]? = some c) →
      l' = .attempt ⟨a.task, phase⟩ → (∀ home, l'.Files home) ∧ ∀ t ∈ l'.known,
        (∃ t' ∈ (Thread.attempt a).known, t'.order = t.order) ∨ ∃ n, s.store.board n = some t.order := by
    rintro phase hcur rfl
    refine ⟨fun _ => trivial, fun t ht => ?_⟩
    rcases List.mem_cons.mp ht with rfl | ht
    · exact .inl ⟨_, List.mem_cons_self, rfl⟩
    · rcases hcur t (Option.mem_toList.mp ht) with h | h
      · exact .inl ⟨t, by simp [Thread.known, h], rfl⟩
      · exact .inr ⟨_, Store.board_of_task h⟩
  have hover : ∀ c, Phase.over.current = some c →
      a.phase.current = some c ∨ s.store.tasks[a.task.name]? = some c := fun c hc => by cases hc
  cases h with
  | read phase h hcur => exact hown phase hcur (List.mem_singleton.mp hl')
  | wrote phase t store h hcur hstore ht =>
    exact hown phase (fun c hc => by simp [hcur] at hc) (List.mem_singleton.mp hl')
  | succeeded code status store h happ hcode hok hstore | exhausted current retry store h hno hstore =>
    exact hown _ hover (List.mem_singleton.mp hl')
  | ended h => cases hl'

theorem advance_known {l : Thread} : ∀ l' ∈ (l.advance input s).1, (∀ home, l'.Files home) ∧ ∀ t ∈ l'.known,
      (∃ t' ∈ l.known, t'.order = t.order) ∨ ∃ n, s.store.board n = some t.order := by
  cases l with
  | call c => exact fun l' hl' => by cases hl'
  | pass p => exact pass_known (p.advance_step input s)
  | attempt a => exact attempt_known (a.advance_step input s)

def Store.Homed (home : Bytes → Bytes) (s : Store) : Prop := ∀ n o, s.board n = some o → o.queue = home o.name

structure World.Filed (home : Bytes → Bytes) (w : World) : Prop where
  stored : w.shared.store.Homed home
  known : ∀ l ∈ w.threads, l.Files home ∧ ∀ t ∈ l.known, t.queue = home t.name

variable {home : Bytes → Bytes} {store : Store} {ms : List (Move Thread Input)}

theorem filed_run (hstore : store.Homed home) (hms : cloudTasks.Along (fun m _ => Files home m) ms (World.over store)) :
    World.Filed home (cloudTasks.run ms (World.over store)) := by
  let G : Server → Prop := fun s => s.store.Homed home
  let P : Server → Thread → Prop := fun _ l => l.Files home ∧ ∀ t ∈ l.known, t.queue = home t.name
  let w := cloudTasks.run ms (World.over store)
  suffices h : G w.shared ∧ ∀ l ∈ w.threads, P w.shared l from ⟨h.1, h.2⟩
  refine Program.each ?_ ?_ hms hstore (fun l hl => by cases hl)
  · rintro w l ⟨hbegins, hfiles⟩ _
    refine ⟨hfiles, fun t ht => ?_⟩
    cases l with
    | call c => cases ht
    | pass p =>
      obtain rfl : p = Pass.starting := hbegins
      cases ht
    | attempt a => exact hbegins.elim
  · rintro s i input left l right _ _ hg ⟨hl, hknown⟩ hothers
    refine ⟨fun n o ho => ?_, fun l' hl' => ?_, hothers⟩
    · rcases advance_board ho with h | ⟨_, t, ht, rfl⟩ | ⟨_, h⟩
      · exact hg n o h
      · exact hknown t ht
      · exact h home hl
    · obtain ⟨hfiles, hcopies⟩ := advance_known l' hl'
      refine ⟨hfiles home, fun t ht => ?_⟩
      rcases hcopies t ht with ⟨t', ht', heq⟩ | ⟨n, hn⟩
      · have hsame := hknown t' ht'
        change t'.order.queue = home t'.order.name at hsame
        rwa [heq] at hsame
      · exact hg n _ hn

def World.Counted (home : Bytes → Bytes) (w : World) : Prop :=
  Threads.Counted home w.shared.worker.perQueue w.held

variable {w : World} {t : Task}

def World.attempts (w : World) : List Attempt :=
  w.threads.filterMap fun
    | .attempt a => some a
    | _ => none

def Starts (w : World) (m : Move Thread Input) (p : Pass) (t : Task) : Prop :=
  ∃ i input, m = .step i input ∧ w.threads[i]? = some (.pass p) ∧
    Thread.attempt ⟨t, .out⟩ ∈ (p.advance input w.shared).1

def Pass.forcing (p : Pass) : Bool :=
  match p.stage with
  | .taking _ => true
  | _ => false

structure Gone (n : Bytes) (w : World) : Prop where
  absent : w.shared.store.board n = none
  untaken : ∀ p fresh, .pass p ∈ w.threads → p.stage = .taking fresh → fresh.name ≠ n

def Creates (n : Bytes) : Move Thread Input → World → Prop
  | .enter _, _ => False
  | .step i input, w => ∃ l, w.threads[i]? = some l ∧ l.Creates n input w.shared

section Filing

variable (hms : ∀ m ∈ ms, Files home m)
include hms

end Filing

def mailQueue : Bytes := ascii "projects/my-project/locations/us-central1/queues/mail"

def welcomeTask : Bytes := mailQueue ++ ascii "/tasks/welcome"

def plainQueue (name : Bytes) : Queue := ⟨name, .running, ⟨0, 0, 0, 0, 0⟩, 0, 0, 0, false⟩

def plainTask (name queue body : Bytes) : Task where
  name := name
  queue := queue
  httpRequest := some ⟨ascii "http://app/hook", [], [], body, none, none⟩
  appEngineHttpRequest := none
  scheduleTime := 0
  created := 0
  dispatchCount := 0
  responseCount := 0
  lastResponseCode := 0
  firstAttempt := 0
  lastAttempt := none
  dispatchDeadline := 0
  runRequested := 0
  namedByServer := false
  serial := 0

def again (queue : Bytes) : Task := { plainTask welcomeTask queue (ascii "again") with scheduleTime := 1 }

end CloudBurrow.Tasks
