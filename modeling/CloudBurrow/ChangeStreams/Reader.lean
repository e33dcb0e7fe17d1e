import CloudBurrow.ChangeStreams.Messages

namespace CloudBurrow.ChangeStreams

open Utf8

inductive Event where
  | data (m : DataMessage)
  | heartbeat (token watermark : Int)
deriving DecidableEq

def Event.messages : Event → List DataMessage
  | .data m => [m]
  | .heartbeat _ _ => []

structure Reader where
  log : Nat
  stop : Option Int
  seq : Int
  queue : List DataMessage
  closing : Bool
  waiting : Bool
  sent : List Event
  base : List Record

def Reader.got (r : Reader) : List Record := receive (r.sent.flatMap Event.messages)

structure System where
  logs : List Log
  current : Option Nat
  clock : Int
  saved : Option SavedLog
  reader : Option Reader
  given : List (Int × List Record)

def System.start (clock : Int) : System := ⟨[], none, clock, none, none, []⟩

inductive From where
  | tokens (ts : List (Int × List Record))
  | time (t : Int)
  | now

def minRetention : Nat := 86400000000000

inductive Move where
  | tick (d : Nat)
  | write (row : Bytes) (mutations : List Mutation) (cluster : Bytes)
  | set (retention : Int)
  | save
  | restart
  | connect (start : From) (stop : Option Int)
  | step
  | beat
  | hangUp

def Move.reading : Move → Bool
  | .connect _ _ | .step | .beat => true
  | _ => false

namespace System

variable (s : System)

def log? : Option Log := s.current.bind fun i => s.logs[i]?

def set (retention : Int) : System :=
  match s.current with
  | some i =>
    if retention = 0 then { s with logs := s.logs.modify i ({ · with gone := true }), current := none }
    else { s with logs := s.logs.modify i fun l => { l with retention }.trim s.clock }
  | none =>
    if retention = 0 then s
    else { s with logs := s.logs ++ [Log.enabled retention s.clock], current := some s.logs.length }

def write (row : Bytes) (mutations : List Mutation) (cluster : Bytes) : System :=
  match s.current with
  | some i => { s with logs := s.logs.modify i fun l => l.append s.clock row mutations cluster }
  | none => s

def save : System :=
  match s.current with
  | some i =>
    let logs := s.logs.modify i (·.trim s.clock)
    { s with logs, saved := logs[i]?.map Log.saved }
  | none => { s with saved := none }

def restart : System :=
  let logs := s.logs.map ({ · with gone := true })
  match s.saved with
  | some saved => { s with logs := logs ++ [saved.restored], current := some logs.length, reader := none }
  | none => { s with logs, current := none, reader := none }

def lowest : List (Int × List Record) → Option (Int × List Record)
  | [] => none
  | [t] => if t.1 < 0 then none else some t
  | t :: rest =>
    if t.1 < 0 then none
    else (lowest rest).map fun best => if best.1 < t.1 then best else t

def position (l : Log) : From → Option (Int × List Record)
  | .tokens ts => (lowest ts).bind fun t => if t.1 < l.trimmed then none else some t
  | .time t =>
    if s.clock < micros t ∨ micros t < micros (s.clock - l.retention) then none
    else some (l.seqAt (micros t), l.logged.take (l.seqAt (micros t)).toNat)
  | .now => some (l.seqAt s.clock, l.logged.take (l.seqAt s.clock).toNat)

def connect (start : From) (stop : Option Int) : System :=
  match s.current, s.log? with
  | some i, some l =>
    match s.position l start with
    | none => { s with reader := none }
    | some p => { s with reader := some ⟨i, stop, p.1, [], false, false, [], p.2⟩ }
  | _, _ => { s with reader := none }

end System

def batchMessages (mark : Int) : List Record → List DataMessage
  | [] => []
  | [r] => dataChangeMessages r mark
  | r :: rest => dataChangeMessages r r.commit ++ batchMessages mark rest

def batchUntil (mark : Int) (stop : Int) : List Record → List DataMessage
  | [] => []
  | [r] => if stop < r.commit then [] else dataChangeMessages r mark
  | r :: rest => if stop < r.commit then [] else dataChangeMessages r r.commit ++ batchUntil mark stop rest

def batch (mark : Int) (stop : Option Int) (recs : List Record) : List DataMessage :=
  match stop with
  | none => batchMessages mark recs
  | some stop => batchUntil mark stop recs

def pastEnd (stop : Option Int) (recs : List Record) : Bool :=
  recs.any fun r => stop.any fun stop => decide (stop < r.commit)

theorem batch_rec {mark : Int} {stop : Option Int} {P : List Record → List DataMessage → Prop} (hnil : P [] [])
    (hpast : ∀ r rest, stop.any (fun stop => decide (stop < r.commit)) = true → P (r :: rest) [])
    (hlast : ∀ r, stop.any (fun stop => decide (stop < r.commit)) = false → P [r] (dataChangeMessages r mark))
    (hmore : ∀ r rest ms, stop.any (fun stop => decide (stop < r.commit)) = false → rest ≠ [] → P rest ms →
      P (r :: rest) (dataChangeMessages r r.commit ++ ms)) (recs : List Record) : P recs (batch mark stop recs) := by
  cases stop with
  | none =>
    induction recs with
    | nil => exact hnil
    | cons r rest ih =>
      cases rest with
      | nil => exact hlast r rfl
      | cons r' rest => exact hmore r _ _ rfl (List.cons_ne_nil _ _) ih
  | some stop =>
    simp only [batch]
    induction recs with
    | nil => exact hnil
    | cons r rest ih =>
      by_cases hr : stop < r.commit
      · have hstop : batchUntil mark stop (r :: rest) = [] := by cases rest <;> simp [batchUntil, hr]
        rw [hstop]
        exact hpast r rest (decide_eq_true hr)
      · cases rest with
        | nil =>
          rw [batchUntil, if_neg hr]
          exact hlast r (decide_eq_false hr)
        | cons r' rest =>
          unfold batchUntil
          rw [if_neg hr]
          exact hmore r _ _ (decide_eq_false hr) (List.cons_ne_nil _ _) ih

def batchLimit : Nat := 64

namespace Reader

variable (r : Reader)

def fetch (l : Log) (clock : Int) : Option Reader :=
  if l.gone then none
  else
    let recs := l.readFrom r.seq batchLimit
    let mark := l.mark clock
    if recs = [] then
      if r.stop.any fun stop => decide (stop < mark) then none else some { r with waiting := true }
    else
      some { r with queue := batch mark r.stop recs, closing := pastEnd r.stop recs, waiting := false }

def send (m : DataMessage) (rest : List DataMessage) : Reader :=
  { r with
    sent := r.sent ++ [.data m], queue := rest
    seq := match m.done with | some done => done.1 | none => r.seq }

def heartbeat (l : Log) (clock : Int) : Reader :=
  { r with sent := r.sent ++ [.heartbeat r.seq (l.mark clock)], waiting := false }

def token : Int × List Record := (r.seq, r.base ++ r.got)

end Reader

namespace System

variable (s : System)

def step : System :=
  match s.reader with
  | none => s
  | some r =>
    match r.queue with
    | m :: rest =>
      let r' := r.send m rest
      { s with reader := some r', given := if m.done.isSome then s.given ++ [r'.token] else s.given }
    | [] =>
      if r.closing then { s with reader := none }
      else { s with reader := s.logs[r.log]?.bind fun l => r.fetch l s.clock }

def beat : System :=
  match s.reader with
  | none => s
  | some r =>
    if r.waiting then
      { s with
        reader := s.logs[r.log]?.map fun l => r.heartbeat l s.clock
        given := s.given ++ [r.token] }
    else s

def move : Move → System
  | .tick d => { s with clock := s.clock + d }
  | .write row mutations cluster => s.write row mutations cluster
  | .set retention => s.set retention
  | .save => s.save
  | .restart => s.restart
  | .connect start stop => s.connect start stop
  | .step => s.step
  | .beat => s.beat
  | .hangUp => { s with reader := none }

def run (ms : List Move) : System := ms.foldl System.move s

def Along (ok : System → Move → Prop) : List Move → System → Prop
  | [], _ => True
  | m :: ms, s => ok s m ∧ Along ok ms (s.move m)

instance instDecidableAlong (ok : System → Move → Prop) [∀ s m, Decidable (ok s m)] :
    ∀ ms s, Decidable (Along ok ms s)
  | [], _ => .isTrue trivial
  | m :: ms, s =>
    have := instDecidableAlong ok ms (s.move m)
    inferInstanceAs (Decidable (ok s m ∧ Along ok ms (s.move m)))

theorem run_induction {ok : System → Move → Prop} {Inv : System → Prop}
    (step : ∀ s m, ok s m → Inv s → Inv (s.move m)) {ms : List Move} {s : System}
    (h : Along ok ms s) (hs : Inv s) : Inv (s.run ms) := by
  induction ms generalizing s with
  | nil => exact hs
  | cons m ms ih => exact ih h.2 (step s m h.1 hs)

end System

inductive LogStep (clock : Int) : Log → Log → Prop where
  | same (l : Log) : LogStep clock l l
  | dropped (l : Log) : LogStep clock l { l with gone := true }
  | trimmed (l : Log) (retention : Int) : LogStep clock l ({ l with retention }.trim clock)
  | appended (l : Log) (row : Bytes) (mutations : List Mutation) (cluster : Bytes) :
      LogStep clock l (l.append clock row mutations cluster)

theorem Log.Sound.retaining {l : Log} (h : l.Sound) (retention : Int) : ({ l with retention } : Log).Sound :=
  ⟨h.numbered, h.next, h.ascending, h.latest, h.low, h.high, h.kept⟩

namespace LogStep

variable {clock : Int} {l l' : Log}

theorem sound (h : LogStep clock l l') (hl : l.Sound) : l'.Sound := by
  cases h with
  | same => exact hl
  | dropped => exact ⟨hl.numbered, hl.next, hl.ascending, hl.latest, hl.low, hl.high, hl.kept⟩
  | trimmed retention => exact (hl.retaining retention).trim clock
  | appended row mutations cluster => exact hl.append clock row mutations cluster

theorem logged (h : LogStep clock l l') : l.logged <+: l'.logged := by
  cases h with
  | same | dropped | trimmed retention => exact List.prefix_rfl
  | appended row mutations cluster =>
    rw [append_eq]
    split_ifs
    · exact List.prefix_rfl
    · exact List.prefix_append _ _

theorem trimmed_le (h : LogStep clock l l') (hl : l.Sound) : l.trimmed ≤ l'.trimmed := by
  cases h with
  | same => exact le_refl _
  | dropped => exact le_refl _
  | trimmed retention => exact (hl.retaining retention).trimmed_le_trim clock
  | appended row mutations cluster =>
    rw [append_eq]
    split_ifs
    · exact le_refl _
    · exact (hl.extended rfl (last_lt_commitTime l clock)).trimmed_le_trim clock

theorem gained (h : LogStep clock l l') : ∃ recs, l'.logged = l.logged ++ recs ∧
    ∀ r ∈ recs, l.mark clock ≤ r.commit := by
  have hsame : l.logged = l.logged ++ [] ∧ ∀ r ∈ ([] : List Record), l.mark clock ≤ r.commit :=
    ⟨(List.append_nil _).symm, fun r hr => absurd hr List.not_mem_nil⟩
  cases h with
  | same | dropped | trimmed retention => exact ⟨[], hsame⟩
  | appended row mutations cluster =>
    rw [append_eq]
    split_ifs
    · exact ⟨[], hsame⟩
    · refine ⟨_, rfl, fun r hr => ?_⟩
      rw [List.mem_singleton.mp hr]
      exact mark_le_commitTime l (le_refl clock)

theorem last_le (h : LogStep clock l l') : l.last ≤ l'.last := by
  cases h with
  | same | dropped | trimmed retention => exact le_refl _
  | appended row mutations cluster =>
    rw [append_eq]
    split_ifs
    · exact le_refl _
    · exact le_of_lt (last_lt_commitTime l clock)

theorem mark_le (h : LogStep clock l l') : l.mark clock ≤ l'.mark clock := by
  have hlast := h.last_le
  unfold Log.mark
  split_ifs <;> omega

end LogStep

theorem last_le_mark (l : Log) (clock : Int) : l.last ≤ l.mark clock := by
  unfold Log.mark
  split_ifs <;> omega

theorem mark_mono (l : Log) {clock clock' : Int} (h : clock ≤ clock') : l.mark clock ≤ l.mark clock' := by
  have hmicros := micros_mono h
  unfold Log.mark
  split_ifs <;> omega

def Log.after (l : Log) (seq : Int) : List Record :=
  (l.segs.flatten ++ l.tail).filter fun r => decide (seq < r.seq)

theorem Log.Sound.after_eq {l : Log} (h : l.Sound) (seq : Int) :
    l.after seq = l.logged.drop (max l.trimmed.toNat seq.toNat) := by
  unfold Log.after
  rw [h.kept, h.filter_seq]

structure System.Sound (s : System) : Prop where
  logs : ∀ l ∈ s.logs, l.Sound
  saved : ∀ sv ∈ s.saved, ∃ l : Log, l.Sound ∧ sv = l.saved

namespace System

variable {s : System}

structure Unwritten (s s' : System) : Prop where
  logs : s'.logs = s.logs
  saved : s'.saved = s.saved
  clock : s'.clock = s.clock

theorem connect_unwritten (start : From) (stop : Option Int) : Unwritten s (s.connect start stop) := by
  unfold connect
  split
  · split <;> exact ⟨rfl, rfl, rfl⟩
  · exact ⟨rfl, rfl, rfl⟩

theorem step_unwritten : Unwritten s s.step := by
  unfold step
  split
  · exact ⟨rfl, rfl, rfl⟩
  · split
    · exact ⟨rfl, rfl, rfl⟩
    · split_ifs <;> exact ⟨rfl, rfl, rfl⟩

theorem beat_unwritten : Unwritten s s.beat := by
  unfold beat
  split
  · exact ⟨rfl, rfl, rfl⟩
  · split_ifs <;> exact ⟨rfl, rfl, rfl⟩

theorem mapIdx_map (f : Log → Log) (logs : List Log) : logs.mapIdx (fun _ l => f l) = logs.map f := by
  refine List.ext_getElem? fun i => ?_
  rw [List.getElem?_mapIdx, List.getElem?_map]

structure Written (s s' : System) (g : Nat → Log → Log) (more : List Log) : Prop where
  logs : s'.logs = s.logs.mapIdx g ++ more
  steps : ∀ i l, LogStep s.clock l (g i l)
  more : s.Sound → ∀ l ∈ more, l.Sound
  saved : ∀ sv ∈ s'.saved, sv ∈ s.saved ∨ ∃ l ∈ s'.logs, sv = l.saved
  clock : s.clock ≤ s'.clock

theorem Unwritten.written {s' : System} (h : Unwritten s s') : Written s s' (fun _ l => l) [] :=
  ⟨by simp [h.logs, mapIdx_map], fun _ l => .same l, by simp, fun sv hsv => .inl (h.saved ▸ hsv), h.clock.ge⟩

theorem written_modify {s' : System} {i : Nat} {f : Log → Log} (hf : ∀ l, LogStep s.clock l (f l))
    (hlogs : s'.logs = s.logs.modify i f) (hsaved : ∀ sv ∈ s'.saved, sv ∈ s.saved ∨ ∃ l ∈ s'.logs, sv = l.saved)
    (hclock : s'.clock = s.clock) : Written s s' (fun j l => if i = j then f l else l) [] := by
  refine ⟨?_, fun j l => ?_, by simp, hsaved, hclock.ge⟩
  · rw [hlogs, List.append_nil]
    refine List.ext_getElem? fun j => ?_
    rw [List.getElem?_modify, List.getElem?_mapIdx]
    cases s.logs[j]? <;> rfl
  · split_ifs
    · exact hf l
    · exact .same l

theorem move_written (m : Move) : ∃ g more, Written s (s.move m) g more := by
  cases m with
  | write row mutations cluster =>
    unfold move write
    cases s.current with
    | none => exact ⟨_, _, Unwritten.written ⟨rfl, rfl, rfl⟩⟩
    | some i => exact ⟨_, _, written_modify (fun l => .appended l row mutations cluster) rfl (fun _ => .inl) rfl⟩
  | set retention =>
    unfold move set
    cases s.current with
    | none =>
      dsimp only
      split_ifs
      · exact ⟨_, _, Unwritten.written ⟨rfl, rfl, rfl⟩⟩
      · refine ⟨fun _ l => l, [Log.enabled retention s.clock], by simp [mapIdx_map], fun _ l => .same l, fun _ l hl => ?_,
          fun _ => .inl, le_rfl⟩
        rw [List.mem_singleton.mp hl]
        exact Log.Sound.enabled retention s.clock
    | some i =>
      dsimp only
      split_ifs
      · exact ⟨_, _, written_modify (fun l => .dropped l) rfl (fun _ => .inl) rfl⟩
      · exact ⟨_, _, written_modify (fun l => .trimmed l retention) rfl (fun _ => .inl) rfl⟩
  | save =>
    unfold move save
    cases s.current with
    | none => exact ⟨fun _ l => l, [], by simp [mapIdx_map], fun _ l => .same l, by simp, by simp, le_rfl⟩
    | some i =>
      refine ⟨_, _, written_modify (fun l => .trimmed l l.retention) rfl (fun sv hsv => .inr ?_) rfl⟩
      obtain ⟨l, hl, rfl⟩ := Option.map_eq_some_iff.mp hsv
      exact ⟨l, List.mem_of_getElem? hl, rfl⟩
  | restart =>
    unfold move restart
    cases hsaved : s.saved with
    | none =>
      exact ⟨fun _ l => { l with gone := true }, [], by simp [mapIdx_map], fun _ l => .dropped l, by simp, by simp, le_rfl⟩
    | some saved =>
      refine ⟨fun _ l => { l with gone := true }, [saved.restored], by simp [mapIdx_map], fun _ l => .dropped l,
        fun hs l hl => ?_, fun sv hsv => .inl (hsaved ▸ hsv), le_rfl⟩
      obtain ⟨l₀, hl₀, rfl⟩ := hs.saved saved hsaved
      rw [List.mem_singleton.mp hl]
      exact hl₀.restored
  | tick d =>
    refine ⟨fun _ l => l, [], by simp [move, mapIdx_map], fun _ l => .same l, by simp, fun _ => .inl, ?_⟩
    change s.clock ≤ s.clock + d
    omega
  | hangUp => exact ⟨_, _, Unwritten.written ⟨rfl, rfl, rfl⟩⟩
  | connect start stop => exact ⟨_, _, (connect_unwritten start stop).written⟩
  | step => exact ⟨_, _, step_unwritten.written⟩
  | beat => exact ⟨_, _, beat_unwritten.written⟩

theorem move_logs (m : Move) {i : Nat} {l : Log} (h : s.logs[i]? = some l) :
    ∃ l', (s.move m).logs[i]? = some l' ∧ LogStep s.clock l l' := by
  obtain ⟨g, more, hw⟩ := move_written (s := s) m
  refine ⟨g i l, ?_, hw.steps i l⟩
  have hmap : (s.logs.mapIdx g)[i]? = some (g i l) := by
    rw [List.getElem?_mapIdx, h]
    rfl
  rw [hw.logs, List.getElem?_append_left (List.getElem?_eq_some_iff.mp hmap).1, hmap]

theorem Sound.move (h : s.Sound) (m : Move) : (s.move m).Sound := by
  obtain ⟨g, more, hw⟩ := move_written (s := s) m
  have hlogs : ∀ l ∈ (s.move m).logs, l.Sound := by
    intro l hl
    rw [hw.logs] at hl
    rcases List.mem_append.mp hl with hold | hnew
    · obtain ⟨i, hi, rfl⟩ := List.mem_mapIdx.mp hold
      exact (hw.steps i _).sound (h.logs _ (List.getElem_mem hi))
    · exact hw.more h l hnew
  refine ⟨hlogs, fun sv hsv => ?_⟩
  rcases hw.saved sv hsv with hold | ⟨l, hl, heq⟩
  · exact h.saved sv hold
  · exact ⟨l, hlogs l hl, heq⟩

theorem clock_le_move (m : Move) : s.clock ≤ (s.move m).clock := by
  obtain ⟨g, more, hw⟩ := move_written (s := s) m
  exact hw.clock

theorem move_reader {m : Move} (hm : m.reading = false) {r : Reader} (h : r ∈ (s.move m).reader) :
    r ∈ s.reader := by
  cases m with
  | connect start stop | step | beat => cases hm
  | tick d => exact h
  | write row mutations cluster =>
    unfold move write at h
    cases hcurrent : s.current with
    | none | some i => simpa [hcurrent] using h
  | set retention =>
    unfold move set at h
    cases hcurrent : s.current with
    | none | some i =>
      simp only [hcurrent] at h
      split_ifs at h <;> exact h
  | save =>
    unfold move save at h
    cases hcurrent : s.current with
    | none | some i => simpa [hcurrent] using h
  | restart =>
    unfold move restart at h
    cases hsaved : s.saved with
    | none | some saved => simp [hsaved] at h
  | hangUp => cases h

def Held (P : Log → Int → Reader → Prop) (s : System) : Prop :=
  ∀ r ∈ s.reader, ∃ l, s.logs[r.log]? = some l ∧ P l s.clock r

variable {P : Log → Int → Reader → Prop}

theorem Held.others (hlog : ∀ clock l l' r, l.Sound → LogStep clock l l' → P l clock r → P l' clock r)
    (hclock : ∀ clock clock' l r, clock ≤ clock' → P l clock r → P l clock' r)
    {m : Move} (hm : m.reading = false) (hs : s.Sound) (h : Held P s) : Held P (s.move m) := by
  intro r hr
  obtain ⟨l, hl, hP⟩ := h r (move_reader hm hr)
  obtain ⟨l', hl', hstep⟩ := move_logs m hl
  have hsound := hs.logs l (List.mem_of_getElem? hl)
  exact ⟨l', hl', hclock _ _ _ _ (clock_le_move m) (hlog _ _ _ _ hsound hstep hP)⟩

theorem Held.connect (start : From) (stop : Option Int)
    (h : ∀ i l p, s.current = some i → s.logs[i]? = some l → s.position l start = some p →
      P l s.clock ⟨i, stop, p.1, [], false, false, [], p.2⟩) : Held P (s.connect start stop) := by
  intro r hr
  rw [(connect_unwritten start stop).logs, (connect_unwritten start stop).clock]
  unfold System.connect at hr
  split at hr
  · rename_i i l hcurrent hlog
    split at hr
    · cases hr
    · rename_i p hp
      obtain rfl := Option.some.inj hr
      have hl : s.logs[i]? = some l := by
        unfold log? at hlog
        rw [hcurrent] at hlog
        exact hlog
      exact ⟨l, hl, h i l p hcurrent hl hp⟩
  · cases hr

theorem fetch_log {r r' : Reader} {l : Log} {clock : Int} (h : r.fetch l clock = some r') : r'.log = r.log := by
  unfold Reader.fetch at h
  dsimp only at h
  split_ifs at h <;> rw [← Option.some.inj h]

theorem Held.step (h : Held P s)
    (hsend : ∀ r l m rest, s.reader = some r → s.logs[r.log]? = some l → r.queue = m :: rest →
      P l s.clock r → P l s.clock (r.send m rest))
    (hfetch : ∀ r l r', s.reader = some r → s.logs[r.log]? = some l → r.queue = [] → r.closing = false →
      P l s.clock r → r.fetch l s.clock = some r' → P l s.clock r') : Held P s.step := by
  intro r' hr'
  rw [step_unwritten.logs, step_unwritten.clock]
  unfold System.step at hr'
  cases hreader : s.reader with
  | none =>
    rw [hreader] at hr'
    cases hreader ▸ hr'
  | some r =>
    obtain ⟨l, hl, hP⟩ := h r hreader
    rw [hreader] at hr'
    dsimp only at hr'
    cases hqueue : r.queue with
    | cons msg rest =>
      rw [hqueue] at hr'
      obtain rfl := Option.some.inj hr'
      exact ⟨l, hl, hsend r l msg rest hreader hl hqueue hP⟩
    | nil =>
      rw [hqueue] at hr'
      dsimp only at hr'
      by_cases hclosing : r.closing = true
      · rw [if_pos hclosing] at hr'
        cases hr'
      · rw [if_neg hclosing, hl] at hr'
        rw [fetch_log hr']
        exact ⟨l, hl, hfetch r l r' hreader hl hqueue (Bool.eq_false_iff.mpr hclosing) hP hr'⟩

theorem Held.beat (h : Held P s) (hbeat : ∀ r l, s.reader = some r → s.logs[r.log]? = some l → r.waiting = true →
      P l s.clock r → P l s.clock (r.heartbeat l s.clock)) : Held P s.beat := by
  intro r' hr'
  rw [beat_unwritten.logs, beat_unwritten.clock]
  unfold System.beat at hr'
  cases hreader : s.reader with
  | none =>
    rw [hreader] at hr'
    cases hreader ▸ hr'
  | some r =>
    obtain ⟨l, hl, hP⟩ := h r hreader
    rw [hreader] at hr'
    dsimp only at hr'
    by_cases hwaiting : r.waiting = true
    · rw [if_pos hwaiting, hl] at hr'
      obtain rfl := Option.some.inj hr'
      exact ⟨l, hl, hbeat r l hreader hl hwaiting hP⟩
    · rw [if_neg hwaiting, hreader] at hr'
      obtain rfl := Option.some.inj hr'
      exact ⟨l, hl, hP⟩

theorem Sound.start (clock : Int) : (System.start clock).Sound := by
  refine ⟨fun l hl => ?_, fun sv hsv => ?_⟩
  · cases hl
  · cases hsv

end System

end CloudBurrow.ChangeStreams
