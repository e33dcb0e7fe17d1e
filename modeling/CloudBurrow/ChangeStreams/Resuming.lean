import CloudBurrow.ChangeStreams.Reader

namespace CloudBurrow.ChangeStreams

open Utf8

section Receiving

def finished (ms : List DataMessage) : Nat := ms.countP (·.done.isSome)

theorem length_receiveFrom_le (st : Receiving) (ms : List DataMessage) :
    (receiveFrom st ms).length ≤ finished ms := by
  induction ms generalizing st with
  | nil => exact le_refl _
  | cons m rest ih =>
    unfold receiveFrom finished
    rw [List.countP_cons]
    cases hdone : m.done with
    | none => exact ih (st.take m)
    | some done =>
      have hone : ((st.take m).record done.1).length ≤ 1 := by
        unfold Receiving.record
        cases (st.take m).header <;> simp
      have hrest := ih .none
      unfold finished at hrest
      simp only [List.length_append, Option.isSome_some, if_true]
      omega

theorem receive_append (xs ys : List DataMessage) :
    receive (xs ++ ys) = receive xs ++ receiveFrom (pendingFrom .none xs) ys := receiveFrom_append _ _ _

theorem receive_part (base : List Record) (xs ys : List DataMessage) :
    base ++ receive xs <+: base ++ receive (xs ++ ys) := by
  rw [receive_append, ← List.append_assoc]
  exact List.prefix_append _ _

theorem receive_complete {xs ys : List DataMessage} (h : (receive (xs ++ ys)).length = finished (xs ++ ys)) :
    (receive xs).length = finished xs := by
  have hxs := length_receiveFrom_le .none xs
  have hys := length_receiveFrom_le (pendingFrom .none xs) ys
  unfold finished at *
  rw [receive_append, List.length_append, List.countP_append] at h
  unfold receive at h ⊢
  omega

theorem finished_messagesFrom (done : Int × Int) (gs : List (List Chunk)) (hne : gs ≠ [])
    (header : Option Header) : finished (messagesFrom done header gs) = 1 := by
  induction gs generalizing header with
  | nil => exact absurd rfl hne
  | cons g rest ih =>
    cases rest with
    | nil => rfl
    | cons g' rest => exact ih (List.cons_ne_nil _ _) none

structure Carries (ms : List DataMessage) (recs : List Record) : Prop where
  received : receive ms = recs
  whole : pendingFrom .none ms = .none
  complete : finished ms = recs.length

theorem Carries.nil : Carries [] [] := ⟨rfl, rfl, rfl⟩

theorem Carries.append {xs ys : List DataMessage} {recs recs' : List Record} (hxs : Carries xs recs)
    (hys : Carries ys recs') : Carries (xs ++ ys) (recs ++ recs') := by
  refine ⟨?_, ?_, ?_⟩
  · rw [receive_append, hxs.whole]
    exact congrArg₂ (· ++ ·) hxs.received hys.received
  · rw [pendingFrom_append, hxs.whole, hys.whole]
  · have hx := hxs.complete
    have hy := hys.complete
    unfold finished at *
    rw [List.countP_append, List.length_append, hx, hy]

theorem Carries.record (r : Record) (mark : Int) : Carries (dataChangeMessages r mark) [r] := by
  have h := receive_dataChangeMessages r mark
  exact ⟨h.1, h.2, finished_messagesFrom _ _ (groups_ne_nil _) _⟩

structure Batched (stop : Option Int) (ms : List DataMessage) (recs front : List Record) : Prop where
  carries : Carries ms front
  split : (pastEnd stop recs = false ∧ recs = front) ∨
    ∃ e ∈ stop, ∃ r rest, recs = front ++ r :: rest ∧ e < r.commit

theorem Batched.cons {stop : Option Int} {ms : List DataMessage} {r : Record} {recs front : List Record}
    {mark : Int} (hr : stop.any (fun stop => decide (stop < r.commit)) = false)
    (h : Batched stop ms recs front) : Batched stop (dataChangeMessages r mark ++ ms) (r :: recs) (r :: front) := by
  refine ⟨(Carries.record r mark).append h.carries, ?_⟩
  rcases h.split with ⟨hend, rfl⟩ | ⟨e, he, last, rest, rfl, hlast⟩
  · refine Or.inl ⟨?_, rfl⟩
    unfold pastEnd at hend ⊢
    rw [List.any_cons, hr, hend]
    rfl
  · exact Or.inr ⟨e, he, last, rest, rfl, hlast⟩

theorem batch_batched (mark : Int) (stop : Option Int) (recs : List Record) :
    ∃ front, Batched stop (batch mark stop recs) recs front := by
  refine batch_rec (P := fun recs ms => ∃ front, Batched stop ms recs front)
    ⟨[], Carries.nil, Or.inl ⟨rfl, rfl⟩⟩ (fun r rest hr => ?_) (fun r hr => ?_) (fun r rest ms hr _ ih => ?_) recs
  · obtain ⟨e, he, hlt⟩ := (Option.any_eq_true ..).mp hr
    exact ⟨[], Carries.nil, Or.inr ⟨e, he, r, rest, rfl, of_decide_eq_true hlt⟩⟩
  · refine ⟨[r], Carries.record r mark, Or.inl ⟨?_, rfl⟩⟩
    unfold pastEnd
    rw [List.any_cons, hr]
    rfl
  · obtain ⟨front, hfront⟩ := ih
    exact ⟨r :: front, hfront.cons hr⟩

end Receiving

def Reader.messages (r : Reader) : List DataMessage := r.sent.flatMap Event.messages ++ r.queue

def Reader.coming (r : Reader) : List Record := r.base ++ receive r.messages

structure Resumed (l : Log) (r : Reader) : Prop where
  coming : r.coming <+: l.logged
  whole : pendingFrom .none r.messages = .none
  complete : (receive r.messages).length = finished r.messages
  position : r.seq = (r.base ++ r.got).length
  ending : r.closing = true → ∃ e ∈ r.stop, e < l.last ∧ ∀ rec ∈ l.logged.drop r.coming.length, e < rec.commit

namespace Resumed

variable {l l' : Log} {clock : Int} {r r' : Reader}

theorem logged (hstep : LogStep clock l l') (h : Resumed l r) : Resumed l' r := by
  obtain ⟨recs, hrecs, hlater⟩ := hstep.gained
  refine ⟨h.coming.trans hstep.logged, h.whole, h.complete, h.position, fun hclosing => ?_⟩
  obtain ⟨e, he, hlast, hrest⟩ := h.ending hclosing
  refine ⟨e, he, lt_of_lt_of_le hlast hstep.last_le, fun rec hrec => ?_⟩
  rw [hrecs, List.drop_append_of_le_length h.coming.length_le] at hrec
  rcases List.mem_append.mp hrec with hold | hnew
  · exact hrest rec hold
  · exact lt_of_lt_of_le hlast (le_trans (last_le_mark l clock) (hlater rec hnew))

theorem ordered (h : Resumed l r) : r.base ++ r.got <+: l.logged :=
  (receive_part r.base _ r.queue).trans h.coming

theorem connected {i : Nat} {stop : Option Int} {seq : Int} {base : List Record} (hbase : base <+: l.logged)
    (hseq : seq = base.length) : Resumed l ⟨i, stop, seq, [], false, false, [], base⟩ := by
  refine ⟨?_, rfl, rfl, ?_, fun hclosing => by cases hclosing⟩
  · change base ++ [] <+: _
    rw [List.append_nil]
    exact hbase
  · change seq = ((base ++ []).length : Int)
    rw [List.append_nil]
    exact hseq

theorem heartbeat (h : Resumed l r) : Resumed l (r.heartbeat l clock) := by
  have hsent : (r.heartbeat l clock).sent.flatMap Event.messages = r.sent.flatMap Event.messages := by
    unfold Reader.heartbeat
    rw [List.flatMap_append]
    exact List.append_nil _
  have hmessages : (r.heartbeat l clock).messages = r.messages := by
    unfold Reader.messages
    rw [hsent]
    rfl
  have hcoming : (r.heartbeat l clock).coming = r.coming := by
    unfold Reader.coming
    rw [hmessages]
    rfl
  have hgot : (r.heartbeat l clock).got = r.got := congrArg receive hsent
  refine ⟨?_, ?_, ?_, ?_, ?_⟩
  · rw [hcoming]
    exact h.coming
  · rw [hmessages]
    exact h.whole
  · rw [hmessages]
    exact h.complete
  · rw [hgot]
    exact h.position
  · rw [hcoming]
    exact h.ending

variable {m : DataMessage} {rest : List DataMessage}

theorem messages_send (hqueue : r.queue = m :: rest) : (r.send m rest).messages = r.messages := by
  unfold Reader.messages Reader.send
  rw [hqueue, List.flatMap_append, List.append_assoc]
  rfl

theorem coming_send (hqueue : r.queue = m :: rest) : (r.send m rest).coming = r.coming := by
  unfold Reader.coming
  rw [messages_send hqueue]
  rfl

theorem position_send (hl : l.Sound) (h : Resumed l r) (hqueue : r.queue = m :: rest) :
    (r.send m rest).seq = (r.base ++ (r.send m rest).got).length := by
  have hgot : (r.send m rest).got = receive (r.sent.flatMap Event.messages ++ [m]) := by
    unfold Reader.got Reader.send
    rw [List.flatMap_append]
    rfl
  have hall : r.messages = (r.sent.flatMap Event.messages ++ [m]) ++ rest := by
    rw [← messages_send hqueue]
    unfold Reader.messages Reader.send
    rw [List.flatMap_append]
    rfl
  have hcomplete := h.complete
  rw [hall] at hcomplete
  have hnow := receive_complete hcomplete
  have hbefore := receive_complete hnow
  have hposition := h.position
  have hordered : r.base ++ (r.send m rest).got <+: l.logged := by
    have hcoming := h.coming
    unfold Reader.coming at hcoming
    rw [hall] at hcoming
    rw [hgot]
    exact (receive_part r.base _ rest).trans hcoming
  rw [← hgot] at hnow
  unfold finished at hnow hbefore
  rw [List.countP_append] at hnow
  cases hdone : m.done with
  | none =>
    have hseq : (r.send m rest).seq = r.seq := by
      unfold Reader.send
      rw [hdone]
    have hcount : [m].countP (·.done.isSome) = 0 := by simp [hdone]
    have hlength : (r.send m rest).got.length = r.got.length := by
      rw [hnow, hcount, Nat.add_zero]
      exact hbefore.symm
    rw [hseq, hposition, List.length_append, List.length_append, hlength]
  | some done =>
    have hseq : (r.send m rest).seq = done.1 := by
      unfold Reader.send
      rw [hdone]
    have hcount : [m].countP (·.done.isSome) = 1 := by simp [hdone]
    have hlength : (r.send m rest).got.length = r.got.length + 1 := by
      rw [hnow, hcount]
      exact congrArg (· + 1) hbefore.symm
    -- the record just completed is the next one of the log, and so has its number
    have hsplit : (r.send m rest).got =
        r.got ++ ((pendingFrom .none (r.sent.flatMap Event.messages)).take m).record done.1 := by
      rw [hgot, receive_append]
      simp only [receiveFrom, hdone, List.append_nil]
      rfl
    obtain ⟨rec, hrec, hnumber⟩ : ∃ rec,
        ((pendingFrom .none (r.sent.flatMap Event.messages)).take m).record done.1 = [rec] ∧ rec.seq = done.1 := by
      rw [hsplit, List.length_append] at hlength
      unfold Receiving.record at hlength ⊢
      cases hheader : ((pendingFrom .none (r.sent.flatMap Event.messages)).take m).header with
      | none => simp [hheader] at hlength
      | some header => exact ⟨_, rfl, rfl⟩
    rw [hsplit, hrec, ← List.append_assoc] at hordered
    have hat : l.logged[(r.base ++ r.got).length]? = some rec := by
      obtain ⟨tail, htail⟩ := hordered
      rw [← htail]
      simp
    have hseq' := hl.numbered _ rec hat
    rw [hseq, ← hnumber, hseq', List.length_append, List.length_append, hlength]
    push_cast
    omega

theorem send (hl : l.Sound) (h : Resumed l r) (hqueue : r.queue = m :: rest) : Resumed l (r.send m rest) := by
  refine ⟨?_, ?_, ?_, h.position_send hl hqueue, ?_⟩
  · rw [coming_send hqueue]
    exact h.coming
  · rw [messages_send hqueue]
    exact h.whole
  · rw [messages_send hqueue]
    exact h.complete
  · rw [coming_send hqueue]
    exact h.ending

theorem coming_eq (hqueue : r.queue = []) : r.coming = r.base ++ r.got := by
  unfold Reader.coming Reader.messages
  rw [hqueue, List.append_nil]
  rfl

theorem length_coming (h : Resumed l r) (hqueue : r.queue = []) : (r.coming.length : Int) = r.seq := by
  rw [coming_eq hqueue, h.position]

theorem readFrom_eq (hl : l.Sound) (h : Resumed l r) (hqueue : r.queue = []) (hkept : l.trimmed ≤ r.seq) :
    l.readFrom r.seq batchLimit = (l.logged.drop r.coming.length).take batchLimit := by
  have hlength := h.length_coming hqueue
  have hlow := hl.low
  rw [hl.readFrom]
  congr 2
  omega

theorem fetch (hl : l.Sound) (h : Resumed l r) (hqueue : r.queue = [])
    (hkept : l.gone = false → l.trimmed ≤ r.seq) (hr' : r.fetch l clock = some r') : Resumed l r' := by
  unfold Reader.fetch at hr'
  by_cases hgone : l.gone = true
  · rw [if_pos hgone] at hr'
    cases hr'
  rw [if_neg hgone, h.readFrom_eq hl hqueue (hkept (Bool.eq_false_iff.mpr hgone))] at hr'
  dsimp only at hr'
  generalize hrecs : (l.logged.drop r.coming.length).take batchLimit = recs at hr'
  by_cases hnone : recs = []
  · rw [if_pos hnone] at hr'
    split_ifs at hr'
    rw [← Option.some.inj hr']
    exact ⟨h.coming, h.whole, h.complete, h.position, h.ending⟩
  · rw [if_neg hnone] at hr'
    rw [← Option.some.inj hr']
    obtain ⟨front, hbatch⟩ := batch_batched (l.mark clock) r.stop recs
    have hsent : Carries (r.sent.flatMap Event.messages) r.got := by
      have hwhole := h.whole
      have hcomplete := h.complete
      unfold Reader.messages at hwhole hcomplete
      rw [hqueue, List.append_nil] at hwhole hcomplete
      exact ⟨rfl, hwhole, hcomplete.symm⟩
    have hcarries := hsent.append hbatch.carries
    have hrest : l.logged = r.coming ++ recs ++ (l.logged.drop r.coming.length).drop batchLimit := by
      rw [List.append_assoc, ← hrecs, List.take_append_drop]
      exact (List.prefix_iff_eq_append.mp h.coming).symm
    have hcoming : r.base ++ receive (r.sent.flatMap Event.messages ++ batch (l.mark clock) r.stop recs) =
        r.coming ++ front := by
      rw [hcarries.received, coming_eq hqueue, List.append_assoc]
    have hfront : front <+: recs := by
      rcases hbatch.split with ⟨-, rfl⟩ | ⟨e, he, rec, rest, rfl, hrec⟩
      · exact List.prefix_rfl
      · exact List.prefix_append _ _
    refine ⟨?_, hcarries.whole, ?_, h.position, fun hclosing => ?_⟩
    · unfold Reader.coming
      rw [show Reader.messages _ = r.sent.flatMap Event.messages ++ batch (l.mark clock) r.stop recs from rfl, hcoming,
        hrest, List.append_assoc]
      exact (List.prefix_append_right_inj _).mpr (hfront.trans (List.prefix_append _ _))
    · exact (congrArg List.length hcarries.received).trans hcarries.complete.symm
    · rcases hbatch.split with ⟨hend, -⟩ | ⟨e, he, rec, rest, rfl, hrec⟩
      · exact absurd (hend.symm.trans hclosing) (by decide)
      · have hdrop : l.logged.drop (r.coming ++ front).length =
            rec :: (rest ++ (l.logged.drop r.coming.length).drop batchLimit) := by
          nth_rewrite 1 [hrest]
          rw [← List.append_assoc r.coming, List.append_assoc _ (rec :: rest), List.drop_left]
          rfl
        have hmem : rec ∈ l.logged := by
          rw [hrest]
          simp
        have hlater : ∀ rec' ∈ l.logged.drop (r.coming ++ front).length, rec.commit ≤ rec'.commit := by
          have hascending := hl.ascending.sublist (List.drop_sublist (r.coming ++ front).length l.logged)
          rw [hdrop] at hascending ⊢
          rw [List.pairwise_cons] at hascending
          intro rec' hrec'
          rcases List.mem_cons.mp hrec' with rfl | hin
          · exact le_refl _
          · exact le_of_lt (hascending.1 rec' hin)
        refine ⟨e, he, lt_of_lt_of_le hrec (hl.latest rec hmem), fun rec' hrec' => ?_⟩
        unfold Reader.coming at hrec'
        rw [show Reader.messages _ = r.sent.flatMap Event.messages ++
          batch (l.mark clock) r.stop (front ++ rec :: rest) from rfl, hcoming] at hrec'
        exact lt_of_lt_of_le hrec (hlater rec' hrec')

end Resumed

def Served (l : Log) (r : Reader) : Prop :=
  ∃ rest, l.logged = r.base ++ r.got ++ rest ∧ ∀ rec ∈ rest, ∃ e ∈ r.stop, e < rec.commit

namespace System

variable {s : System} {l : Log} {r : Reader}

def steps (n : Nat) (s : System) : System := s.run (List.replicate n .step)

theorem steps_add (m n : Nat) (s : System) : steps (m + n) s = steps n (steps m s) := by
  unfold steps run
  rw [List.replicate_add, List.foldl_append]

theorem steps_unwritten (n : Nat) (s : System) : Unwritten s (steps n s) := by
  induction n generalizing s with
  | zero => exact ⟨rfl, rfl, rfl⟩
  | succ n ih =>
    have hstep : Unwritten s s.step := step_unwritten
    have hrest := ih s.step
    exact ⟨hrest.logs.trans hstep.logs, hrest.saved.trans hstep.saved, hrest.clock.trans hstep.clock⟩

structure Onward (r r' : Reader) : Prop where
  log : r'.log = r.log
  base : r'.base = r.base
  stop : r'.stop = r.stop

theorem Onward.trans {r' r'' : Reader} (h : Onward r r') (h' : Onward r' r'') : Onward r r'' :=
  ⟨h'.log.trans h.log, h'.base.trans h.base, h'.stop.trans h.stop⟩

theorem drain (hl : l.Sound) (hreader : s.reader = some r) (h : Resumed l r) :
    ∃ n r', (steps n s).reader = some r' ∧ Onward r r' ∧ r'.queue = [] ∧ r'.closing = r.closing ∧
      r'.coming = r.coming ∧ Resumed l r' := by
  generalize hqueue : r.queue = queue
  induction queue generalizing s r with
  | nil => exact ⟨0, r, hreader, ⟨rfl, rfl, rfl⟩, hqueue, rfl, rfl, h⟩
  | cons m rest ih =>
    have hsent : s.step.reader = some (r.send m rest) := by
      unfold step
      rw [hreader]
      dsimp only
      rw [hqueue]
    obtain ⟨n, r', hr', honward, hempty, hclosing, hcoming, hresumed⟩ :=
      ih hsent (h.send hl hqueue) rfl
    have hstart : Onward r (r.send m rest) := ⟨rfl, rfl, rfl⟩
    refine ⟨n + 1, r', ?_, hstart.trans honward, hempty, hclosing, ?_, hresumed⟩
    · rw [Nat.add_comm, steps_add]
      exact hr'
    · rw [hcoming, Resumed.coming_send hqueue]

theorem fetch_more (hl : l.Sound) (hreader : s.reader = some r) (hlog : s.logs[r.log]? = some l)
    (h : Resumed l r) (hqueue : r.queue = []) (hopen : r.closing = false) (hgone : l.gone = false)
    (hkept : l.trimmed ≤ r.seq) (hmore : r.coming.length < l.logged.length) :
    ∃ r', s.step.reader = some r' ∧ Onward r r' ∧ Resumed l r' ∧
      (r'.closing = true ∨ r.coming.length < r'.coming.length) := by
  have hfetch : s.step.reader = r.fetch l s.clock := by
    unfold step
    rw [hreader]
    dsimp only
    rw [hqueue]
    dsimp only
    rw [hopen, hlog]
    rfl
  have hread := h.readFrom_eq hl hqueue hkept
  have hne : (l.logged.drop r.coming.length).take batchLimit ≠ [] := by
    intro hnil
    have hlength := congrArg List.length hnil
    rw [List.length_take, List.length_drop, List.length_nil] at hlength
    unfold batchLimit at hlength
    omega
  generalize (l.logged.drop r.coming.length).take batchLimit = recs at hread hne
  have hsome : r.fetch l s.clock = some { r with
      queue := batch (l.mark s.clock) r.stop recs, closing := pastEnd r.stop recs, waiting := false } := by
    unfold Reader.fetch
    rw [hgone, if_neg (by decide)]
    dsimp only
    rw [hread, if_neg hne]
  refine ⟨_, hfetch.trans hsome, ⟨rfl, rfl, rfl⟩, h.fetch hl hqueue (fun _ => hkept) hsome, ?_⟩
  by_cases hpast : pastEnd r.stop recs = true
  · exact Or.inl hpast
  · right
    obtain ⟨front, hbatch⟩ := batch_batched (l.mark s.clock) r.stop recs
    have hfront : front = recs := by
      rcases hbatch.split with ⟨-, hall⟩ | ⟨e, he, rec, rest, hsplit, hrec⟩
      · exact hall.symm
      · refine absurd ?_ hpast
        rw [hsplit]
        refine List.any_eq_true.mpr ⟨rec, by simp, ?_⟩
        rw [Option.mem_def.mp he]
        exact decide_eq_true hrec
    have hwhole := h.whole
    unfold Reader.messages at hwhole
    rw [hqueue, List.append_nil] at hwhole
    have hpos := List.length_pos_iff.mpr hne
    have hreceived : receiveFrom .none (batch (l.mark s.clock) r.stop recs) = recs :=
      hbatch.carries.received.trans hfront
    rw [Resumed.coming_eq hqueue]
    unfold Reader.coming Reader.messages Reader.got
    dsimp only
    rw [receive_append, hwhole, hreceived, List.length_append, List.length_append, List.length_append]
    omega

theorem served (hl : l.Sound) (hgone : l.gone = false) (hreader : s.reader = some r)
    (hlog : s.logs[r.log]? = some l) (h : Resumed l r) (hkept : l.trimmed ≤ r.coming.length) :
    ∃ n r', (steps n s).reader = some r' ∧ Onward r r' ∧ Served l r' := by
  have hclosed : ∀ r' : Reader, Resumed l r' → r'.queue = [] → r'.closing = true → Served l r' := by
    intro r' hr' hqueue hclosing
    obtain ⟨e, he, -, hrest⟩ := hr'.ending hclosing
    refine ⟨l.logged.drop r'.coming.length, ?_, fun rec hrec => ⟨e, he, hrest rec hrec⟩⟩
    rw [← Resumed.coming_eq hqueue]
    exact (List.prefix_iff_eq_append.mp hr'.coming).symm
  generalize hleft : l.logged.length - r.coming.length = left
  induction left using Nat.strong_induction_on generalizing s r with
  | _ left ih =>
    obtain ⟨n, r₁, hr₁, honward, hqueue, hclosing, hcoming, hresumed⟩ := drain hl hreader h
    have hlog₁ : (steps n s).logs[r₁.log]? = some l := by
      rw [(steps_unwritten n s).logs, honward.log]
      exact hlog
    by_cases hend : r₁.closing = true
    · exact ⟨n, r₁, hr₁, honward, hclosed r₁ hresumed hqueue hend⟩
    by_cases hmore : r₁.coming.length < l.logged.length
    · have hseq := hresumed.length_coming hqueue
      obtain ⟨r₂, hr₂, honward₂, hresumed₂, hnext⟩ := fetch_more hl hr₁ hlog₁ hresumed hqueue
        (Bool.eq_false_iff.mpr hend) hgone (by rw [← hseq, hcoming]; exact hkept) hmore
      have hlog₂ : (steps (n + 1) s).logs[r₂.log]? = some l := by
        rw [(steps_unwritten (n + 1) s).logs, honward₂.log, honward.log]
        exact hlog
      have hr₂' : (steps (n + 1) s).reader = some r₂ := by
        rw [steps_add]
        exact hr₂
      rcases hnext with hclosing₂ | hlonger
      · obtain ⟨k, r₃, hr₃, honward₃, hqueue₃, hclosing₃, -, hresumed₃⟩ := drain hl hr₂' hresumed₂
        refine ⟨n + 1 + k, r₃, ?_, (honward.trans honward₂).trans honward₃, ?_⟩
        · rw [steps_add]
          exact hr₃
        · exact hclosed r₃ hresumed₃ hqueue₃ (hclosing₃.trans hclosing₂)
      · have hpre := hresumed₂.coming.length_le
        obtain ⟨k, r₃, hr₃, honward₃, hserved⟩ := ih (l.logged.length - r₂.coming.length) (by rw [← hcoming] at hleft; omega) hr₂'
          hlog₂ hresumed₂ (by rw [hcoming] at hlonger; omega) rfl
        refine ⟨n + 1 + k, r₃, ?_, (honward.trans honward₂).trans honward₃, hserved⟩
        rw [steps_add]
        exact hr₃
    · refine ⟨n, r₁, hr₁, honward, [], ?_, fun rec hrec => absurd hrec List.not_mem_nil⟩
      rw [List.append_nil, ← Resumed.coming_eq hqueue]
      have hpre := hresumed.coming
      exact (hpre.eq_of_length (by have := hpre.length_le; omega)).symm

end System

theorem seqFrom_mem (t : Int) (recs : List Record) (seq : Int) :
    seqFrom t recs seq = seq ∨ ∃ r ∈ recs, seqFrom t recs seq = r.seq := by
  induction recs generalizing seq with
  | nil => exact Or.inl rfl
  | cons r rest ih =>
    unfold seqFrom
    split_ifs
    · rcases ih r.seq with hlast | ⟨r', hr', hseq⟩
      · exact Or.inr ⟨r, List.mem_cons_self, hlast⟩
      · exact Or.inr ⟨r', List.mem_cons_of_mem _ hr', hseq⟩
    · exact Or.inl rfl

theorem Log.Sound.seqAt_bounds {l : Log} (h : l.Sound) (t : Int) :
    0 ≤ l.seqAt t ∧ l.seqAt t ≤ l.logged.length := by
  have hlow := h.low
  have hhigh := h.high
  unfold Log.seqAt
  rcases seqFrom_mem t (l.segs.flatten ++ l.tail) l.trimmed with hseq | ⟨r, hr, hseq⟩
  · omega
  · rw [h.kept] at hr
    obtain ⟨i, hi, hget⟩ := List.mem_iff_getElem.mp (List.mem_of_mem_drop hr)
    have hnumber := h.numbered i r (by rw [List.getElem?_eq_getElem hi, hget])
    omega

theorem lowest_mem {ts : List (Int × List Record)} {t : Int × List Record} (h : System.lowest ts = some t) :
    t ∈ ts := by
  induction ts with
  | nil => cases h
  | cons a rest ih =>
    cases rest with
    | nil =>
      unfold System.lowest at h
      split_ifs at h
      rw [← Option.some.inj h]
      exact List.mem_cons_self
    | cons b rest =>
      unfold System.lowest at h
      split_ifs at h
      obtain ⟨best, hbest, hmin⟩ := Option.map_eq_some_iff.mp h
      split_ifs at hmin
      · rw [hmin] at hbest
        exact List.mem_cons_of_mem _ (ih hbest)
      · rw [← hmin]
        exact List.mem_cons_self

def Ours (s : System) : Move → Prop
  | .connect (.tokens ts) _ => ∀ t ∈ ts, t ∈ s.given ∧ ∀ l ∈ s.log?, t.2 <+: l.logged
  | .step => ∀ r ∈ s.reader, r.queue = [] → r.closing = false →
      ∀ l ∈ s.logs[r.log]?, l.gone = false → l.trimmed ≤ r.seq
  | _ => True

instance instDecidableOurs (s : System) : ∀ m, Decidable (Ours s m)
  | .connect (.tokens ts) _ =>
    inferInstanceAs (Decidable (∀ t ∈ ts, t ∈ s.given ∧ ∀ l ∈ s.log?, t.2 <+: l.logged))
  | .step => inferInstanceAs (Decidable (∀ r ∈ s.reader, r.queue = [] → r.closing = false →
      ∀ l ∈ s.logs[r.log]?, l.gone = false → l.trimmed ≤ r.seq))
  | .connect (.time _) _ | .connect .now _ => .isTrue trivial
  | .tick _ | .write _ _ _ | .set _ | .save | .restart | .beat | .hangUp => .isTrue trivial

namespace System

variable {s : System} {l : Log} {r : Reader}

def Counted (s : System) : Prop := ∀ t ∈ s.given, t.1 = t.2.length

theorem move_given {m : Move} (hm : m.reading = false) : (s.move m).given = s.given := by
  cases m with
  | connect start stop | step | beat => cases hm
  | tick d | hangUp => rfl
  | write row mutations cluster =>
    change (s.write row mutations cluster).given = _
    unfold write
    cases s.current <;> rfl
  | set retention =>
    change (s.set retention).given = _
    unfold set
    cases s.current <;> dsimp only <;> split_ifs <;> rfl
  | save =>
    change s.save.given = _
    unfold save
    cases s.current <;> rfl
  | restart =>
    change s.restart.given = _
    unfold restart
    cases s.saved <;> rfl

theorem connect_given (start : From) (stop : Option Int) : (s.connect start stop).given = s.given := by
  unfold connect
  split
  · split <;> rfl
  · rfl

theorem step_given : s.step.given = s.given ∨
    ∃ r m rest, s.reader = some r ∧ r.queue = m :: rest ∧ s.step.given = s.given ++ [(r.send m rest).token] := by
  unfold step
  cases hreader : s.reader with
  | none => exact Or.inl rfl
  | some r =>
    dsimp only
    cases hqueue : r.queue with
    | nil =>
      dsimp only
      split_ifs <;> exact Or.inl rfl
    | cons m rest =>
      dsimp only
      split_ifs
      · exact Or.inr ⟨r, m, rest, rfl, hqueue, rfl⟩
      · exact Or.inl rfl

theorem beat_given : s.beat.given = s.given ∨
    ∃ r, s.reader = some r ∧ s.beat.given = s.given ++ [r.token] := by
  unfold beat
  cases hreader : s.reader with
  | none => exact Or.inl rfl
  | some r =>
    dsimp only
    split_ifs
    · exact Or.inr ⟨r, rfl, rfl⟩
    · exact Or.inl rfl

theorem Counted.append (h : Counted s) {t : Int × List Record} (ht : t.1 = t.2.length) :
    ∀ t' ∈ s.given ++ [t], t'.1 = t'.2.length := by
  intro t' ht'
  rcases List.mem_append.mp ht' with hold | hnew
  · exact h t' hold
  · rw [List.mem_singleton.mp hnew]
    exact ht

theorem Counted.move (m : Move) (hs : s.Sound) (hheld : Held (fun l _ => Resumed l) s) (h : Counted s) :
    Counted (s.move m) := by
  unfold Counted
  by_cases hreading : m.reading = false
  · rw [move_given hreading]
    exact h
  cases m with
  | connect start stop =>
    change ∀ t ∈ (s.connect start stop).given, _
    rw [connect_given]
    exact h
  | step =>
    change ∀ t ∈ s.step.given, _
    rcases step_given (s := s) with hsame | ⟨r, m, rest, hreader, hqueue, hmore⟩
    · rw [hsame]
      exact h
    · obtain ⟨l, hl, hresumed⟩ := hheld r hreader
      rw [hmore]
      exact h.append (hresumed.position_send (hs.logs l (List.mem_of_getElem? hl)) hqueue)
  | beat =>
    change ∀ t ∈ s.beat.given, _
    rcases beat_given (s := s) with hsame | ⟨r, hreader, hmore⟩
    · rw [hsame]
      exact h
    · obtain ⟨l, hl, hresumed⟩ := hheld r hreader
      rw [hmore]
      exact h.append hresumed.position
  | _ => exact absurd rfl hreading

theorem position_resumed {start : From} {stop : Option Int} (hm : Ours s (.connect start stop)) (hl : l.Sound)
    (hlog : s.log? = some l) (hcounted : Counted s) {p : Int × List Record} (hp : s.position l start = some p) :
    p.2 <+: l.logged ∧ p.1 = p.2.length := by
  have hat : ∀ t, l.logged.take (l.seqAt t).toNat <+: l.logged ∧
      l.seqAt t = (l.logged.take (l.seqAt t).toNat).length := by
    intro t
    have hbounds := hl.seqAt_bounds t
    refine ⟨List.take_prefix _ _, ?_⟩
    rw [List.length_take]
    omega
  cases start with
  | tokens ts =>
    obtain ⟨t, ht, hge⟩ := Option.bind_eq_some_iff.mp hp
    split_ifs at hge
    rw [← Option.some.inj hge]
    obtain ⟨hgiven, hpre⟩ := hm t (lowest_mem ht)
    exact ⟨hpre l hlog, hcounted t hgiven⟩
  | time t =>
    unfold position at hp
    dsimp only at hp
    split_ifs at hp
    rw [← Option.some.inj hp]
    exact hat (micros t)
  | now =>
    rw [← Option.some.inj hp]
    exact hat s.clock

theorem resumed_move (m : Move) (hm : Ours s m) (hs : s.Sound) (hcounted : Counted s)
    (h : Held (fun l _ => Resumed l) s) : Held (fun l _ => Resumed l) (s.move m) := by
  by_cases hreading : m.reading = false
  · exact h.others (fun _ _ _ _ _ hstep hP => hP.logged hstep) (fun _ _ _ _ _ hP => hP) hreading hs
  cases m with
  | connect start stop =>
    refine Held.connect start stop fun i l p hcurrent hl hp => ?_
    have hlog : s.log? = some l := by
      unfold log?
      rw [hcurrent]
      exact hl
    obtain ⟨hbase, hseq⟩ := position_resumed hm (hs.logs l (List.mem_of_getElem? hl)) hlog hcounted hp
    exact Resumed.connected hbase hseq
  | step =>
    refine h.step (fun r l msg rest _ hl hqueue hP => ?_) fun r l r' hr hl hqueue hopen hP hr' => ?_
    · exact hP.send (hs.logs l (List.mem_of_getElem? hl)) hqueue
    · exact hP.fetch (hs.logs l (List.mem_of_getElem? hl)) hqueue (hm r hr hqueue hopen l hl) hr'
  | beat => exact h.beat fun r l _ _ _ hP => hP.heartbeat
  | _ => exact absurd rfl hreading

end System

structure NothingMissed (s : System) (r : Reader) (l : Log) : Prop where
  ordered : r.base ++ r.got <+: l.logged
  position : r.seq = (r.base ++ r.got).length
  served : l.gone = false → l.trimmed ≤ r.seq →
    ∃ n r', (System.steps n s).reader = some r' ∧ System.Onward r r' ∧ Served l r'

theorem readers_miss_nothing {clock : Int} {ms : List Move} (h : System.Along Ours ms (System.start clock)) :
    ∀ r ∈ ((System.start clock).run ms).reader, ∃ l, ((System.start clock).run ms).logs[r.log]? = some l ∧
      NothingMissed ((System.start clock).run ms) r l := by
  have hstart : (System.start clock).Sound ∧ System.Counted (System.start clock) ∧
      System.Held (fun l _ => Resumed l) (System.start clock) := by
    refine ⟨System.Sound.start clock, fun t ht => ?_, fun r hr => ?_⟩
    · cases ht
    · cases hr
  have hstep : ∀ s m, Ours s m → s.Sound ∧ System.Counted s ∧ System.Held (fun l _ => Resumed l) s →
      (s.move m).Sound ∧ System.Counted (s.move m) ∧ System.Held (fun l _ => Resumed l) (s.move m) :=
    fun s m hm hs => ⟨hs.1.move m, hs.2.1.move m hs.1 hs.2.2, System.resumed_move m hm hs.1 hs.2.1 hs.2.2⟩
  obtain ⟨hsound, -, hheld⟩ := System.run_induction hstep h hstart
  intro r hr
  obtain ⟨l, hl, hresumed⟩ := hheld r hr
  refine ⟨l, hl, hresumed.ordered, hresumed.position, fun hgone hkept => ?_⟩
  refine System.served (hsound.logs l (List.mem_of_getElem? hl)) hgone hr hl hresumed ?_
  have hlength := (receive_part r.base (r.sent.flatMap Event.messages) r.queue).length_le
  have hposition := hresumed.position
  unfold Reader.coming Reader.messages
  unfold Reader.got at hposition
  omega

def rowWrite (row : UInt8) : Move := .write [row] [.setCell ⟨[1], [1], 0⟩ [7]] []

def rowRecord (seq : Int) (row : UInt8) (commit : Int) : Record :=
  ⟨seq, [row], [], commit, [.setCell ⟨[1], [1], 0⟩ [7]]⟩

def resumedRun : List Move :=
  [.set minRetention, .connect .now none, rowWrite 1, .step, .step, .hangUp, rowWrite 2, rowWrite 3, .save, .restart,
    .connect (.tokens [(1, [rowRecord 1 1 1000])]) none, .step, .step]

theorem resumedRun_missing_nothing : System.Along Ours resumedRun (System.start 0) ∧
    (∀ r ∈ ((System.start 0).run resumedRun).reader, ∃ l,
      ((System.start 0).run resumedRun).logs[r.log]? = some l ∧
      NothingMissed ((System.start 0).run resumedRun) r l) ∧
    ((System.start 0).run resumedRun).reader.map Reader.got = some [rowRecord 2 2 2000] := by
  have hours : System.Along Ours resumedRun (System.start 0) := by decide +kernel
  exact ⟨hours, readers_miss_nothing hours, by decide +kernel⟩

def enabledAgainRun : List Move :=
  [.set minRetention, .connect .now none, rowWrite 1, .step, .step, .hangUp, .set 0, .set minRetention, rowWrite 2,
    .connect (.tokens [(1, [rowRecord 1 1 1000])]) none, .step]

def restoredRun : List Move :=
  [.set minRetention, .save, .connect .now none, rowWrite 1, .step, .step, .restart, rowWrite 2,
    .connect (.tokens [(1, [rowRecord 1 1 1000])]) none, .step]

def trimmedRun : List Move :=
  [.set minRetention, .connect .now none, rowWrite 1, .tick (2 * minRetention), rowWrite 2, .step, .step]

theorem records_skipped : (∀ ms ∈ [enabledAgainRun, restoredRun],
      ∃ r ∈ ((System.start 0).run ms).reader, ∃ l ∈ ((System.start 0).run ms).logs[r.log]?,
        r.waiting = true ∧ r.base = [rowRecord 1 1 1000] ∧ r.got = [] ∧ l.logged = [rowRecord 1 2 1000]) ∧
    ∃ r ∈ ((System.start 0).run trimmedRun).reader, ∃ l ∈ ((System.start 0).run trimmedRun).logs[r.log]?,
      r.got = [rowRecord 2 2 (2 * minRetention)] ∧ l.logged = [rowRecord 1 1 1000, rowRecord 2 2 (2 * minRetention)] := by
  decide +kernel

end CloudBurrow.ChangeStreams
