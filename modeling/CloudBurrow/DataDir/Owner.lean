import CloudBurrow.Process.Threads

namespace CloudBurrow.DataDir

open Threads

structure LockFile where
  inode : Nat
  content : Option ℕ+
deriving DecidableEq

structure Dir where
  lock : Option LockFile
  next : Nat
  stopped : Finset ℕ+

inductive Stage where
  | opening
  | reading
  | signalling (owner : ℕ+)
  | removing
  | retrying
  | writing (inode : Nat)
  | loading (inode : Nat)
  | holding (inode : Nat)
  | releasing (inode : Nat)
deriving DecidableEq

inductive Thread where
  | call (pid : ℕ+) (stage : Stage)
  | kill (pid : ℕ+)
deriving DecidableEq

structure Input where
  writes : Bool
  loads : Bool

namespace Dir

def create (d : Dir) : Dir := { d with lock := some ⟨d.next, none⟩, next := d.next + 1 }

def record (d : Dir) (inode : Nat) (pid : ℕ+) : Dir :=
  { d with lock := d.lock.map fun f => if f.inode = inode then { f with content := some pid } else f }

def remove (d : Dir) : Dir := { d with lock := none }

def kill (d : Dir) (pid : ℕ+) : Dir := { d with stopped := insert pid d.stopped }

def advance (input : Input) (d : Dir) (pid : ℕ+) : Stage → List Thread × Dir
  | .opening =>
    match d.lock with
    | none => ([.call pid (.writing d.next)], d.create)
    | some _ => ([.call pid .reading], d)
  | .reading =>
    match d.lock with
    | none => ([], d)
    | some f =>
      match f.content with
      | none => ([], d)
      | some owner => if owner = pid then ([], d) else ([.call pid (.signalling owner)], d)
  | .signalling owner => if owner ∈ d.stopped then ([.call pid .removing], d) else ([], d)
  | .removing => ([.call pid .retrying], d.remove)
  | .retrying =>
    match d.lock with
    | none => ([.call pid (.writing d.next)], d.create)
    | some _ => ([], d)
  | .writing inode => if input.writes then ([.call pid (.loading inode)], d.record inode pid) else ([], d)
  | .loading inode => if input.loads then ([.call pid (.holding inode)], d) else ([.call pid (.releasing inode)], d)
  | .holding inode => ([.call pid (.releasing inode)], d)
  | .releasing _ => ([], d.remove)

end Dir

def program : Program Dir Thread Input where
  advance input l d :=
    match l with
    | .kill pid => ([], d.kill pid)
    | .call pid stage => if pid ∈ d.stopped then ([], d) else d.advance input pid stage

def Stage.inode : Stage → Option Nat
  | .writing inode | .loading inode | .holding inode | .releasing inode => some inode
  | _ => none

def Stage.recorded (pid : ℕ+) : Stage → Option ℕ+
  | .writing _ => none
  | _ => some pid

namespace Dir

variable (d : Dir)

def running : Thread → Bool
  | .call pid _ => decide (pid ∉ d.stopped)
  | .kill _ => false

def holding : Thread → Bool
  | .call pid (.holding _) => decide (pid ∉ d.stopped)
  | _ => false

def claiming : Thread → Bool
  | .call pid stage => decide (pid ∉ d.stopped) && stage.inode.isSome
  | .kill _ => false

end Dir

abbrev World := Sys Dir Thread

def initial : World := ⟨⟨none, 0, ∅⟩, []⟩

def begins : Move Thread Input → Bool
  | .enter (.call _ stage) => stage = .opening
  | _ => true

structure Owned (s : World) : Prop where
  alone : (s.threads.filter s.shared.holding).length ≤ 1
  own : ∀ pid inode, .call pid (.releasing inode) ∈ s.threads → pid ∉ s.shared.stopped →
    ∀ f, s.shared.lock = some f → f.inode = inode
  reopens : (∀ t ∈ s.threads, s.shared.running t = false) → ∀ pid, pid ∉ s.shared.stopped →
    ∃ n inode, (program.run (.enter (.call pid .opening) :: List.replicate n (.step 0 ⟨true, true⟩)) s).threads.head? =
      some (.call pid (.holding inode))

def Dir.stale (d : Dir) : Bool := d.lock.all fun f => f.content.any fun owner => owner ∈ d.stopped

def Thread.writing (pid : ℕ+) : Thread → Bool
  | .call owner (.writing _) => owner = pid
  | _ => false

def careful (m : Move Thread Input) (s : World) : Bool :=
  begins m &&
    match m with
    | .enter _ => true
    | .step i input =>
      match s.threads[i]? with
      | some (.call pid .removing) => pid ∈ s.shared.stopped || s.shared.stale
      | some (.call pid (.writing _)) => pid ∈ s.shared.stopped || input.writes
      | some (.kill pid) => s.threads.all fun t => !t.writing pid
      | _ => true

inductive Kept (d : Dir) (ts : List Thread) : Prop
  | free (hlock : d.lock = none) (hts : ts.filter d.claiming = [])
  | stale (f : LockFile) (owner : ℕ+) (hlock : d.lock = some f) (hcontent : f.content = some owner)
      (hstopped : owner ∈ d.stopped) (hts : ts.filter d.claiming = [])
  | held (f : LockFile) (pid : ℕ+) (stage : Stage) (hlock : d.lock = some f)
      (hts : ts.filter d.claiming = [.call pid stage]) (hinode : stage.inode = some f.inode)
      (hcontent : f.content = stage.recorded pid)

section Claims

variable {d d' : Dir} {ts left right ls : List Thread} {l : Thread} {pid : ℕ+} {stage stage' : Stage}

theorem claiming_call (hrun : pid ∉ d.stopped) : d.claiming (.call pid stage) = stage.inode.isSome := by
  simp [Dir.claiming, hrun]

theorem claiming_of_none (h : stage.inode = none) : d.claiming (.call pid stage) = false := by
  simp [Dir.claiming, h]

theorem claiming_congr (h : d'.stopped = d.stopped) : d'.claiming = d.claiming := by
  funext t
  cases t with
  | call pid stage => simp [Dir.claiming, h]
  | kill pid => rfl

theorem filter_replaced (p : Thread → Bool) (hl : p l = false) (hls : ls.filter p = []) :
    (left ++ ls ++ right).filter p = (left ++ l :: right).filter p := by
  simp [List.filter_append, hl, hls]

theorem Kept.congr {ts' : List Thread} (h : Kept d ts) (hts : ts'.filter d.claiming = ts.filter d.claiming) :
    Kept d ts' := by
  cases h with
  | free hlock hnone => exact .free hlock (hts.trans hnone)
  | stale f owner hlock hcontent hstopped hnone => exact .stale f owner hlock hcontent hstopped (hts.trans hnone)
  | held f pid stage hlock hone hinode hcontent => exact .held f pid stage hlock (hts.trans hone) hinode hcontent

theorem Kept.outside (h : Kept d (left ++ l :: right)) (hl : d.claiming l = false) (hls : ls.filter d.claiming = []) :
    Kept d (left ++ ls ++ right) := h.congr (filter_replaced d.claiming hl hls)

theorem Kept.ended (h : Kept d (left ++ l :: right)) (hl : d.claiming l = false) : Kept d (left ++ right) := by
  have hnext : Kept d (left ++ [] ++ right) := h.outside hl rfl
  rwa [List.append_nil] at hnext

theorem Kept.enter (h : Kept d ts) (hl : d.claiming l = false) : Kept d (l :: ts) :=
  h.congr (List.filter_cons_of_neg (by simp [hl]))

theorem Kept.nobody (h : Kept d ts) (hstale : d.stale = true) : ts.filter d.claiming = [] := by
  cases h with
  | free _ hnone => exact hnone
  | stale _ _ _ _ _ hnone => exact hnone
  | held f pid stage hsome hone hinode hcontent =>
    exfalso
    have hmem : Thread.call pid stage ∈ ts.filter d.claiming := by
      rw [hone]
      exact List.mem_singleton_self _
    have hclaims := (List.mem_filter.mp hmem).2
    have hrun : pid ∉ d.stopped := by
      simp only [Dir.claiming, Bool.and_eq_true, decide_eq_true_eq] at hclaims
      exact hclaims.1
    simp only [Dir.stale, hsome, Option.all_some, hcontent] at hstale
    cases stage <;> simp_all [Stage.recorded]

theorem Kept.claimant (h : Kept d (left ++ .call pid stage :: right)) (hrun : pid ∉ d.stopped)
    (hclaims : stage.inode.isSome) :
    ∃ f, d.lock = some f ∧ left.filter d.claiming = [] ∧ right.filter d.claiming = [] ∧
      stage.inode = some f.inode ∧ f.content = stage.recorded pid := by
  have hfilter : (left ++ .call pid stage :: right).filter d.claiming =
      left.filter d.claiming ++ .call pid stage :: right.filter d.claiming := by
    rw [List.filter_append, List.filter_cons_of_pos (by rw [claiming_call hrun, hclaims])]
  cases h with
  | free _ hnone | stale _ _ _ _ _ hnone =>
    rw [hfilter] at hnone
    simp at hnone
  | held f pid' stage' hlock hone hinode hcontent =>
    rw [hfilter, List.append_eq_singleton_iff] at hone
    rcases hone with ⟨hleft, hright⟩ | ⟨-, hright⟩
    · obtain ⟨heq, hnil⟩ := List.cons.inj hright
      cases heq
      exact ⟨f, hlock, hleft, hnil, hinode, hcontent⟩
    · cases hright

theorem Kept.created (hts : (left ++ right).filter d.claiming = []) (hrun : pid ∉ d.stopped) :
    Kept d.create (left ++ [.call pid (.writing d.next)] ++ right) := by
  have hsame : d.create.claiming = d.claiming := claiming_congr rfl
  have hnew : d.claiming (.call pid (.writing d.next)) = true := claiming_call hrun
  rw [List.filter_append, List.append_eq_nil_iff] at hts
  refine .held ⟨d.next, none⟩ pid (.writing d.next) rfl ?_ rfl rfl
  rw [hsame, List.filter_append, List.filter_append, hts.1, hts.2]
  simp [hnew]

theorem Kept.inside {f : LockFile} (hsame : d'.stopped = d.stopped) (hleft : left.filter d.claiming = [])
    (hright : right.filter d.claiming = []) (hrun : pid ∉ d.stopped) (hlock : d'.lock = some f)
    (hinode : stage.inode = some f.inode) (hcontent : f.content = stage.recorded pid) :
    Kept d' (left ++ [.call pid stage] ++ right) := by
  have hnew : d.claiming (.call pid stage) = true := by rw [claiming_call hrun, hinode, Option.isSome_some]
  refine .held f pid stage hlock ?_ hinode hcontent
  rw [claiming_congr hsame, List.filter_append, List.filter_append, hleft, hright]
  simp [hnew]

theorem Kept.removed (hleft : left.filter d.claiming = []) (hright : right.filter d.claiming = [])
    (hls : ls.filter d.claiming = []) : Kept d.remove (left ++ ls ++ right) := by
  have hsame : d.remove.claiming = d.claiming := claiming_congr rfl
  refine .free rfl ?_
  rw [hsame, List.filter_append, List.filter_append, hleft, hright, hls]
  rfl

theorem claiming_kill (d : Dir) (pid : ℕ+) (ts : List Thread) :
    ts.filter (d.kill pid).claiming = (ts.filter d.claiming).filter (d.kill pid).running := by
  rw [List.filter_filter]
  refine List.filter_congr fun t _ => ?_
  cases t with
  | call owner stage =>
    simp only [Dir.claiming, Dir.running, Dir.kill, Finset.mem_insert, not_or]
    cases stage.inode.isSome <;> simp
  | kill owner => rfl

theorem Kept.killed (h : Kept d ts) (pid : ℕ+) (hwrites : ∀ t ∈ ts, t.writing pid = false) :
    Kept (d.kill pid) ts := by
  have hkill := claiming_kill d pid ts
  cases h with
  | free hlock hnone =>
    rw [hnone] at hkill
    exact .free hlock hkill
  | stale f owner hlock hcontent hstopped hnone =>
    rw [hnone] at hkill
    exact .stale f owner hlock hcontent (Finset.mem_insert_of_mem hstopped) hkill
  | held f owner stage hlock hone hinode hcontent =>
    have hmem : Thread.call owner stage ∈ ts.filter d.claiming := by
      rw [hone]
      exact List.mem_singleton_self _
    rw [hone] at hkill
    by_cases heq : owner = pid
    · subst heq
      have hrecorded : stage.recorded owner = some owner := by
        cases stage with
        | writing inode =>
          have hnot := hwrites _ (List.mem_filter.mp hmem).1
          simp [Thread.writing] at hnot
        | _ => rfl
      refine .stale f owner hlock (hcontent.trans hrecorded) (Finset.mem_insert_self _ _) ?_
      rw [hkill]
      simp [Dir.running, Dir.kill]
    · have hclaims := (List.mem_filter.mp hmem).2
      simp only [Dir.claiming, Bool.and_eq_true, decide_eq_true_eq] at hclaims
      refine .held f owner stage hlock ?_ hinode hcontent
      rw [hkill]
      simp [Dir.running, Dir.kill, heq, hclaims.1]

end Claims

section Steps

variable {d : Dir} {left right : List Thread} {pid : ℕ+} {stage : Stage} {input : Input}

theorem kept_advance (h : Kept d (left ++ .call pid stage :: right)) (hrun : pid ∉ d.stopped)
    (hremoving : stage = .removing → d.stale = true)
    (hwriting : ∀ inode, stage = .writing inode → input.writes = true) :
    Kept (d.advance input pid stage).2 (left ++ (d.advance input pid stage).1 ++ right) := by
  have hquiet : ∀ stage', stage'.inode = none → [Thread.call pid stage'].filter d.claiming = [] :=
    fun stage' hnone => by simp [claiming_of_none hnone]
  cases stage with
  | opening =>
    have hl : d.claiming (.call pid .opening) = false := claiming_of_none rfl
    simp only [Dir.advance]
    cases hlock : d.lock with
    | none =>
      exact Kept.created ((h.ended hl).nobody (by simp [Dir.stale, hlock])) hrun
    | some f => exact h.outside hl (hquiet _ rfl)
  | reading =>
    have hl : d.claiming (.call pid .reading) = false := claiming_of_none rfl
    simp only [Dir.advance]
    split
    · exact h.outside hl rfl
    · split
      · exact h.outside hl rfl
      · split_ifs
        · exact h.outside hl rfl
        · exact h.outside hl (hquiet _ rfl)
  | signalling owner =>
    have hl : d.claiming (.call pid (.signalling owner)) = false := claiming_of_none rfl
    simp only [Dir.advance]
    split_ifs
    · exact h.outside hl (hquiet _ rfl)
    · exact h.outside hl rfl
  | removing =>
    have hl : d.claiming (.call pid .removing) = false := claiming_of_none rfl
    have hnobody := (h.ended hl).nobody (hremoving rfl)
    rw [List.filter_append, List.append_eq_nil_iff] at hnobody
    exact Kept.removed hnobody.1 hnobody.2 (hquiet _ rfl)
  | retrying =>
    have hl : d.claiming (.call pid .retrying) = false := claiming_of_none rfl
    simp only [Dir.advance]
    cases hlock : d.lock with
    | none =>
      exact Kept.created ((h.ended hl).nobody (by simp [Dir.stale, hlock])) hrun
    | some f => exact h.outside hl rfl
  | writing inode =>
    obtain ⟨f, hlock, hleft, hright, hinode, -⟩ := h.claimant hrun rfl
    obtain rfl : inode = f.inode := Option.some.inj hinode
    simp only [Dir.advance, hwriting _ rfl, if_true]
    refine Kept.inside (f := { f with content := some pid }) rfl hleft hright hrun ?_ rfl rfl
    simp [Dir.record, hlock]
  | loading inode =>
    obtain ⟨f, hlock, hleft, hright, hinode, hcontent⟩ := h.claimant hrun rfl
    simp only [Dir.advance]
    split_ifs
    all_goals exact Kept.inside rfl hleft hright hrun hlock hinode hcontent
  | holding inode =>
    obtain ⟨f, hlock, hleft, hright, hinode, hcontent⟩ := h.claimant hrun rfl
    exact Kept.inside rfl hleft hright hrun hlock hinode hcontent
  | releasing inode =>
    obtain ⟨f, -, hleft, hright, -, -⟩ := h.claimant hrun rfl
    exact Kept.removed hleft hright rfl

theorem kept_of_run {ms : List (Move Thread Input)} (hms : program.Along (fun m s => careful m s = true) ms initial) :
    Kept (program.run ms initial).shared (program.run ms initial).threads := by
  let Inv : World → Prop := fun s => Kept s.shared s.threads
  have hstart : Inv initial := .free rfl rfl
  refine Program.invariant ?_ ?_ hms hstart
  · intro s l hok hkept
    refine hkept.enter ?_
    cases l with
    | call pid stage =>
      obtain rfl : stage = .opening := by simpa [careful, begins] using hok
      exact claiming_of_none rfl
    | kill pid => rfl
  · intro d i input left l right hok hget hkept
    simp only [careful, hget, Bool.and_eq_true] at hok
    cases l with
    | kill pid =>
      have hnext := hkept.killed pid (by simpa only [List.all_eq_true, Bool.not_eq_true'] using hok.2)
      exact hnext.outside rfl rfl
    | call pid stage =>
      by_cases hstop : pid ∈ d.stopped
      · simp only [program, hstop, if_true]
        exact hkept.outside (by simp [Dir.claiming, hstop]) rfl
      · simp only [program, hstop, if_false]
        refine kept_advance hkept hstop ?_ ?_
        · rintro rfl
          simpa [hstop] using hok.2
        · rintro inode rfl
          simpa [hstop] using hok.2

end Steps

section Reopening

variable {d : Dir} {ts : List Thread} {pid : ℕ+} {stage : Stage}

theorem nobody_of_stopped (h : ∀ t ∈ ts, d.running t = false) : ts.filter d.claiming = [] := by
  refine List.filter_eq_nil_iff.mpr fun t ht hclaims => ?_
  have hstopped := h t ht
  cases t with
  | call owner stage => simp_all [Dir.claiming, Dir.running]
  | kill owner => simp [Dir.claiming] at hclaims

theorem move_head (hrun : pid ∉ d.stopped) (input : Input) :
    program.move (.step 0 input) ⟨d, .call pid stage :: ts⟩ =
      ⟨(d.advance input pid stage).2, (d.advance input pid stage).1 ++ ts⟩ := by
  simp [Program.move, program, hrun]

theorem holds_of_writing (hrun : pid ∉ d.stopped) (inode : Nat) :
    (program.run (List.replicate 2 (.step 0 ⟨true, true⟩)) ⟨d, .call pid (.writing inode) :: ts⟩).threads.head? =
      some (.call pid (.holding inode)) := by
  have hrun' : pid ∉ (d.record inode pid).stopped := hrun
  rw [List.replicate_succ, List.replicate_succ, List.replicate_zero, Program.run_cons, move_head hrun]
  simp only [Dir.advance, if_true, List.cons_append, List.nil_append]
  rw [Program.run_cons, move_head hrun']
  rfl

theorem reopens_free (hlock : d.lock = none) (hrun : pid ∉ d.stopped) :
    (program.run (.enter (.call pid .opening) :: List.replicate 3 (.step 0 ⟨true, true⟩)) ⟨d, ts⟩).threads.head? =
      some (.call pid (.holding d.next)) := by
  have hrun' : pid ∉ d.create.stopped := hrun
  rw [List.replicate_succ, Program.run_cons, Program.run_cons]
  change (program.run _ (program.move _ ⟨d, .call pid .opening :: ts⟩)).threads.head? = _
  rw [move_head hrun]
  simp only [Dir.advance, hlock, List.cons_append, List.nil_append]
  exact holds_of_writing hrun' d.next

theorem reopens_stale {f : LockFile} {owner : ℕ+} (hlock : d.lock = some f) (hcontent : f.content = some owner)
    (hstopped : owner ∈ d.stopped) (hrun : pid ∉ d.stopped) :
    (program.run (.enter (.call pid .opening) :: List.replicate 7 (.step 0 ⟨true, true⟩)) ⟨d, ts⟩).threads.head? =
      some (.call pid (.holding d.next)) := by
  have hne : owner ≠ pid := by
    rintro rfl
    exact hrun hstopped
  have hrun' : pid ∉ d.remove.stopped := hrun
  have hrun'' : pid ∉ d.remove.create.stopped := hrun
  have hopening : d.advance ⟨true, true⟩ pid .opening = ([.call pid .reading], d) := by simp [Dir.advance, hlock]
  have hreading : d.advance ⟨true, true⟩ pid .reading = ([.call pid (.signalling owner)], d) := by
    simp [Dir.advance, hlock, hcontent, hne]
  have hsignalling : d.advance ⟨true, true⟩ pid (.signalling owner) = ([.call pid .removing], d) := by
    simp [Dir.advance, hstopped]
  simp only [List.replicate_succ, Program.run_cons]
  change (program.run _ (program.move _ (program.move _ (program.move _ (program.move _ (program.move _
    (program.move _ (program.move _ ⟨d, .call pid .opening :: ts⟩)))))))).threads.head? = _
  rw [move_head hrun, hopening, List.cons_append, List.nil_append, move_head hrun, hreading, List.cons_append,
    List.nil_append, move_head hrun, hsignalling, List.cons_append, List.nil_append, move_head hrun]
  change (program.run _ (program.move _ (program.move _ (program.move _ ⟨d.remove, .call pid .retrying :: ts⟩)))).threads.head? = _
  rw [move_head hrun']
  exact holds_of_writing hrun'' d.next

end Reopening

theorem directory_has_one_owner {ms : List (Move Thread Input)} (hms : program.Along (fun m s => careful m s = true) ms initial) :
    Owned (program.run ms initial) := by
  have hkept := kept_of_run hms
  generalize program.run ms initial = s at hkept
  obtain ⟨d, ts⟩ := s
  refine ⟨?_, ?_, ?_⟩
  · have hsub : (ts.filter d.holding).length ≤ (ts.filter d.claiming).length := by
      refine (List.monotone_filter_right ts fun t ht => ?_).length_le
      cases t with
      | call pid stage => cases stage <;> simp_all [Dir.holding, Dir.claiming, Stage.inode]
      | kill pid => simp [Dir.holding] at ht
    refine hsub.trans ?_
    cases hkept with
    | free _ hnone => simp [hnone]
    | stale _ _ _ _ _ hnone => simp [hnone]
    | held _ _ _ _ hone _ _ => simp [hone]
  · intro pid inode hmem hrun f hlock
    obtain ⟨left, right, rfl⟩ := List.append_of_mem hmem
    obtain ⟨f', hlock', -, -, hinode, -⟩ := hkept.claimant hrun rfl
    obtain rfl : f' = f := Option.some.inj (hlock'.symm.trans hlock)
    exact (Option.some.inj hinode).symm
  · intro hstopped pid hrun
    have hnobody := nobody_of_stopped hstopped
    cases hkept with
    | free hlock _ => exact ⟨3, _, reopens_free hlock hrun⟩
    | stale f owner hlock hcontent hstop _ => exact ⟨7, _, reopens_stale hlock hcontent hstop hrun⟩
    | held f owner stage hlock hone _ _ =>
      rw [hnobody] at hone
      cases hone

def takeover : List (Move Thread Input) :=
  (.enter (.call 1 .opening) :: List.replicate 3 (.step 0 ⟨true, true⟩) : List (Move Thread Input)) ++
    ([.enter (.kill 1), .step 0 ⟨true, true⟩, .enter (.call 2 .opening)] : List (Move Thread Input)) ++
    (List.replicate 7 (.step 0 ⟨true, true⟩) : List (Move Thread Input))

theorem takeover_has_one_owner : Owned (program.run takeover initial) ∧
      (program.run takeover initial).threads = [.call 2 (.holding 1), .call 1 (.holding 0)] :=
  ⟨directory_has_one_owner (by decide +kernel), by decide +kernel⟩

def bothReclaim : List (Move Thread Input) :=
  (.enter (.call 1 .opening) :: List.replicate 3 (.step 0 ⟨true, true⟩) : List (Move Thread Input)) ++
    ([.enter (.kill 1), .step 0 ⟨true, true⟩, .enter (.call 2 .opening)] : List (Move Thread Input)) ++
    (List.replicate 3 (.step 0 ⟨true, true⟩) : List (Move Thread Input)) ++
    (.enter (.call 3 .opening) :: List.replicate 3 (.step 0 ⟨true, true⟩) : List (Move Thread Input)) ++
    (List.replicate 4 (.step 1 ⟨true, true⟩) : List (Move Thread Input)) ++
    (List.replicate 4 (.step 0 ⟨true, true⟩) : List (Move Thread Input))

def closesOther : List (Move Thread Input) := bothReclaim ++ [.step 1 ⟨true, true⟩]

def unwritten : List (Move Thread Input) :=
  [.enter (.call 1 .opening), .step 0 ⟨true, true⟩, .enter (.kill 1), .step 0 ⟨true, true⟩]

theorem run_nobody (d : Dir) (n : Nat) (input : Input) :
    program.run (List.replicate n (.step 0 input)) ⟨d, []⟩ = ⟨d, []⟩ := by
  induction n with
  | zero => rfl
  | succ n ih => exact ih

theorem unwritten_never_held (n inode : Nat) :
    (program.run (.enter (.call 2 .opening) :: List.replicate n (.step 0 ⟨true, true⟩))
      (program.run unwritten initial)).threads.head? ≠ some (.call 2 (.holding inode)) := by
  rcases n with _ | _ | _ | n
  · simp [unwritten, initial, program, Program.run, Program.move, Dir.advance, Dir.create, Dir.kill]
  · simp [unwritten, initial, program, Program.run, Program.move, Dir.advance, Dir.create, Dir.kill]
  · simp [unwritten, initial, program, Program.run, Program.move, Dir.advance, Dir.create, Dir.kill]
  · have hend : program.run (.enter (.call 2 .opening) :: List.replicate (n + 3) (.step 0 ⟨true, true⟩))
        (program.run unwritten initial) =
          program.run (List.replicate n (.step 0 ⟨true, true⟩)) ⟨⟨some ⟨0, none⟩, 1, {1}⟩, []⟩ := rfl
    rw [hend, run_nobody]
    simp

theorem directory_shared_or_lost : (program.Along (fun m _ => begins m = true) closesOther initial ∧
      ¬ Owned (program.run bothReclaim initial) ∧ ¬ Owned (program.run closesOther initial)) ∧
    (program.Along (fun m _ => begins m = true) unwritten initial ∧ ¬ Owned (program.run unwritten initial)) := by
  refine ⟨⟨by decide +kernel, fun h => ?_, fun h => ?_⟩, by decide +kernel, fun h => ?_⟩
  · exact absurd h.alone (by decide +kernel)
  · exact absurd (h.own 2 1 (by decide +kernel) (by decide +kernel) ⟨2, some 3⟩ (by decide +kernel)) (by decide +kernel)
  · obtain ⟨n, inode, hholds⟩ := h.reopens (by decide +kernel) 2 (by decide +kernel)
    exact unwritten_never_held n inode hholds

end CloudBurrow.DataDir
