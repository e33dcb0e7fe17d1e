import CloudBurrow.ChangeStreams.Reader

namespace CloudBurrow.ChangeStreams

open Utf8

def Event.watermark : Event → Option Int
  | .data m => m.done.map Prod.snd
  | .heartbeat _ w => some w

def Event.commit : Event → Option Int
  | .data m => m.header.map Header.commit
  | .heartbeat _ _ => none

def Follows (a b : Event) : Prop :=
  ∀ w ∈ a.watermark, (∀ t ∈ b.commit, w ≤ t) ∧ ∀ w' ∈ b.watermark, w ≤ w'

instance (a b : Event) : Decidable (Follows a b) :=
  inferInstanceAs (Decidable (∀ w ∈ a.watermark, (∀ t ∈ b.commit, w ≤ t) ∧ ∀ w' ∈ b.watermark, w ≤ w'))

def TrueMarks (sent : List Event) : Prop := sent.Pairwise Follows

instance (sent : List Event) : Decidable (TrueMarks sent) := inferInstanceAs (Decidable (sent.Pairwise Follows))

def Within (commits marks : Int → Prop) (es : List Event) : Prop :=
  ∀ e ∈ es, (∀ t ∈ e.commit, commits t) ∧ ∀ w ∈ e.watermark, marks w

theorem TrueMarks.append {xs ys : List Event} {marks commits marks' : Int → Prop} {commits' : Int → Prop}
    (hxs : TrueMarks xs) (hys : TrueMarks ys) (hx : Within commits marks xs) (hy : Within commits' marks' ys)
    (h : ∀ w, marks w → (∀ t, commits' t → w ≤ t) ∧ ∀ w', marks' w' → w ≤ w') : TrueMarks (xs ++ ys) := by
  refine List.pairwise_append.mpr ⟨hxs, hys, fun a ha b hb w hw => ?_⟩
  have hle := h w ((hx a ha).2 w hw)
  exact ⟨fun t ht => hle.1 t ((hy b hb).1 t ht), fun w' hw' => hle.2 w' ((hy b hb).2 w' hw')⟩

theorem messagesFrom_marks (done : Int × Int) (header : Option Header) (gs : List (List Chunk)) :
    TrueMarks ((messagesFrom done header gs).map .data) ∧
      Within (· ∈ header.map Header.commit) (· = done.2) ((messagesFrom done header gs).map .data) := by
  induction gs generalizing header with
  | nil => exact ⟨List.Pairwise.nil, fun e he => absurd he List.not_mem_nil⟩
  | cons g rest ih =>
    cases rest with
    | nil =>
      refine ⟨List.pairwise_singleton _ _, fun e he => ?_⟩
      rw [List.mem_singleton.mp he]
      refine ⟨fun t ht => ht, fun w hw => ?_⟩
      exact (Option.some.inj hw).symm
    | cons g' rest =>
      obtain ⟨hmarks, hwithin⟩ := ih none
      refine ⟨List.pairwise_cons.mpr ⟨fun b _ w hw => ?_, hmarks⟩, fun e he => ?_⟩
      · cases hw
      · rcases List.mem_cons.mp he with rfl | hrest
        · exact ⟨fun t ht => ht, fun w hw => by cases hw⟩
        · refine ⟨fun t ht => ?_, (hwithin _ hrest).2⟩
          cases (hwithin e hrest).1 t ht

theorem dataChangeMessages_marks (r : Record) (mark : Int) :
    TrueMarks ((dataChangeMessages r mark).map .data) ∧
      Within (· = r.commit) (· = mark) ((dataChangeMessages r mark).map .data) := by
  obtain ⟨hmarks, hwithin⟩ := messagesFrom_marks (r.seq, mark) (some r.header)
    (groups (r.mutations.flatMap chunksOf))
  refine ⟨hmarks, fun e he => ⟨fun t ht => ?_, (hwithin e he).2⟩⟩
  exact (Option.some.inj ((hwithin e he).1 t ht)).symm

def OfBatch (mark : Int) (recs : List Record) : List Event → Prop :=
  Within (fun t => ∃ r ∈ recs, t = r.commit) fun w => w = mark ∨ ∃ r ∈ recs, w = r.commit

variable {mark : Int} {r : Record} {recs : List Record}

theorem OfBatch.cons {xs ys : List Event}
    (hxs : Within (· = r.commit) (· = r.commit) xs) (hys : OfBatch mark recs ys) :
    OfBatch mark (r :: recs) (xs ++ ys) := by
  intro e he
  rcases List.mem_append.mp he with hx | hy
  · refine ⟨fun t ht => ⟨r, List.mem_cons_self, (hxs e hx).1 t ht⟩, fun w hw => ?_⟩
    exact Or.inr ⟨r, List.mem_cons_self, (hxs e hx).2 w hw⟩
  · refine ⟨fun t ht => ?_, fun w hw => ?_⟩
    · obtain ⟨r', hr', heq⟩ := (hys e hy).1 t ht
      exact ⟨r', List.mem_cons_of_mem _ hr', heq⟩
    · rcases (hys e hy).2 w hw with hmark | ⟨r', hr', heq⟩
      · exact Or.inl hmark
      · exact Or.inr ⟨r', List.mem_cons_of_mem _ hr', heq⟩

theorem marks_cons {ms : List DataMessage} (hlater : ∀ r' ∈ recs, r.commit < r'.commit) (hmark : r.commit ≤ mark)
    (h : TrueMarks (ms.map .data) ∧ OfBatch mark recs (ms.map .data)) :
    TrueMarks ((dataChangeMessages r r.commit ++ ms).map .data) ∧
      OfBatch mark (r :: recs) ((dataChangeMessages r r.commit ++ ms).map .data) := by
  obtain ⟨hown, hwithin⟩ := dataChangeMessages_marks r r.commit
  rw [List.map_append]
  refine ⟨hown.append h.1 hwithin h.2 ?_, OfBatch.cons hwithin h.2⟩
  rintro w rfl
  refine ⟨?_, ?_⟩
  · rintro t ⟨r', hr', rfl⟩
    exact le_of_lt (hlater r' hr')
  · rintro w' (rfl | ⟨r', hr', rfl⟩)
    · exact hmark
    · exact le_of_lt (hlater r' hr')

theorem marks_last (r : Record) (mark : Int) : TrueMarks ((dataChangeMessages r mark).map .data) ∧
    OfBatch mark [r] ((dataChangeMessages r mark).map .data) := by
  obtain ⟨hmarks, hwithin⟩ := dataChangeMessages_marks r mark
  refine ⟨hmarks, fun e he => ⟨fun t ht => ?_, fun w hw => Or.inl ((hwithin e he).2 w hw)⟩⟩
  exact ⟨r, List.mem_cons_self, (hwithin e he).1 t ht⟩

theorem marks_none (mark : Int) (recs : List Record) :
    TrueMarks (([] : List DataMessage).map .data) ∧ OfBatch mark recs (([] : List DataMessage).map .data) :=
  ⟨List.Pairwise.nil, fun _ he => absurd he List.not_mem_nil⟩

theorem batch_marks (stop : Option Int)
    (hasc : recs.Pairwise fun a b => a.commit < b.commit) (hmark : ∀ r ∈ recs, r.commit ≤ mark) :
    TrueMarks ((batch mark stop recs).map .data) ∧ OfBatch mark recs ((batch mark stop recs).map .data) := by
  refine batch_rec (P := fun recs ms => recs.Pairwise (fun a b => a.commit < b.commit) → (∀ r ∈ recs, r.commit ≤ mark) →
      TrueMarks (ms.map .data) ∧ OfBatch mark recs (ms.map .data)) (fun _ _ => marks_none mark [])
    (fun r rest _ _ _ => marks_none mark (r :: rest)) (fun r _ _ _ => marks_last r mark)
    (fun r rest ms _ _ ih hasc hmark => ?_) recs hasc hmark
  rw [List.pairwise_cons] at hasc
  have hrest := ih hasc.2 fun r' hr' => hmark r' (List.mem_cons_of_mem _ hr')
  exact marks_cons hasc.1 (hmark r List.mem_cons_self) hrest

def passed (seq : Int) (m : DataMessage) : Int :=
  match m.done with
  | some done => done.1
  | none => seq

theorem foldl_messagesFrom (done : Int × Int) (gs : List (List Chunk)) (hne : gs ≠ []) (header : Option Header)
    (seq : Int) : (messagesFrom done header gs).foldl passed seq = done.1 := by
  induction gs generalizing header with
  | nil => exact absurd rfl hne
  | cons g rest ih =>
    cases rest with
    | nil => rfl
    | cons g' rest => exact ih (List.cons_ne_nil _ _) none

theorem foldl_dataChangeMessages (r : Record) (mark seq : Int) :
    (dataChangeMessages r mark).foldl passed seq = r.seq :=
  foldl_messagesFrom (r.seq, mark) _ (groups_ne_nil _) (some r.header) seq

theorem foldl_batch {stop : Option Int} (h : pastEnd stop recs = false) (seq : Int) :
    (batch mark stop recs).foldl passed seq = (recs.getLast?.map Record.seq).getD seq := by
  refine batch_rec (P := fun recs ms => pastEnd stop recs = false → ∀ seq,
      ms.foldl passed seq = (recs.getLast?.map Record.seq).getD seq) (fun _ _ => rfl) (fun r rest hr h => ?_)
    (fun r _ _ seq => foldl_dataChangeMessages r mark seq) (fun r rest ms _ hne ih h seq => ?_) recs h seq
  · simp [pastEnd, hr] at h
  · rw [List.foldl_append, foldl_dataChangeMessages, ih (Bool.or_eq_false_iff.mp h).2]
    obtain ⟨r', rest', rfl⟩ := List.exists_cons_of_ne_nil hne
    rw [List.getLast?_cons_cons]
    cases hlast : (r' :: rest').getLast? with
    | none => simp at hlast
    | some last => rfl

theorem Log.Sound.after_last {l : Log} (h : l.Sound) {seq : Int}
    (hlast : (l.after seq).getLast? = some r) : l.after r.seq = [] := by
  rw [h.after_eq] at hlast
  rw [List.getLast?_drop] at hlast
  split_ifs at hlast with hlength
  rw [List.getLast?_eq_getElem?] at hlast
  have hseq := h.numbered _ r hlast
  rw [h.after_eq]
  apply List.drop_of_length_le
  omega

theorem LogStep.after {clock : Int} {l l' : Log} (h : LogStep clock l l') (hl : l.Sound) {seq : Int} (hr : r ∈ l'.after seq) : r ∈ l.after seq ∨ l.mark clock ≤ r.commit := by
  obtain ⟨recs, hrecs, hlater⟩ := h.gained
  have htrimmed := h.trimmed_le hl
  rw [(h.sound hl).after_eq, hrecs, List.drop_append] at hr
  rcases List.mem_append.mp hr with hold | hnew
  · left
    rw [hl.after_eq]
    have hle : max l.trimmed.toNat seq.toNat ≤ max l'.trimmed.toNat seq.toNat := by omega
    exact (List.drop_sublist_drop_left _ hle).mem hold
  · exact Or.inr (hlater r (List.mem_of_mem_drop hnew))

def Reader.events (r : Reader) : List Event := r.sent ++ r.queue.map .data

def Reader.upTo (r : Reader) : Int := r.queue.foldl passed r.seq

structure Marked (l : Log) (clock : Int) (r : Reader) : Prop where
  truthful : TrueMarks r.events
  bounded : ∀ e ∈ r.events, ∀ w ∈ e.watermark, w ≤ l.mark clock
  ahead : r.closing = false → ∀ e ∈ r.events, ∀ w ∈ e.watermark, ∀ rec ∈ l.after r.upTo, w ≤ rec.commit
  idle : r.waiting = true → r.queue = []

namespace Marked

variable {l l' : Log} {clock clock' : Int} {r : Reader}

theorem logged (hl : l.Sound) (hstep : LogStep clock l l') (h : Marked l clock r) : Marked l' clock r := by
  refine ⟨h.truthful, fun e he w hw => ?_, fun hopen e he w hw rec hrec => ?_, h.idle⟩
  · exact le_trans (h.bounded e he w hw) hstep.mark_le
  · rcases hstep.after hl hrec with hold | hnew
    · exact h.ahead hopen e he w hw rec hold
    · exact le_trans (h.bounded e he w hw) hnew

theorem later (hclock : clock ≤ clock') (h : Marked l clock r) : Marked l clock' r :=
  ⟨h.truthful, fun e he w hw => le_trans (h.bounded e he w hw) (mark_mono l hclock), h.ahead, h.idle⟩

theorem connected (l : Log) (clock : Int) (i : Nat) (stop : Option Int) (seq : Int) (base : List Record) :
    Marked l clock ⟨i, stop, seq, [], false, false, [], base⟩ :=
  ⟨List.Pairwise.nil, fun _ he => absurd he List.not_mem_nil,
    fun _ _ he => absurd he List.not_mem_nil, fun _ => rfl⟩

theorem send (h : Marked l clock r) {m : DataMessage} {rest : List DataMessage} (hqueue : r.queue = m :: rest) :
    Marked l clock (r.send m rest) := by
  have hevents : (r.send m rest).events = r.events := by
    unfold Reader.events Reader.send
    rw [hqueue]
    simp
  have hupTo : (r.send m rest).upTo = r.upTo := by
    unfold Reader.upTo
    rw [hqueue]
    rfl
  refine ⟨?_, ?_, ?_, fun hwaiting => ?_⟩
  · rw [hevents]
    exact h.truthful
  · rw [hevents]
    exact h.bounded
  · rw [hevents, hupTo]
    exact h.ahead
  · have hnil := h.idle hwaiting
    rw [hqueue] at hnil
    cases hnil

theorem heartbeat (h : Marked l clock r) (hwaiting : r.waiting = true) (hnone : l.after r.seq = []) :
    Marked l clock (r.heartbeat l clock) := by
  have hqueue := h.idle hwaiting
  have hevents : r.events = r.sent := by
    unfold Reader.events
    rw [hqueue, List.map_nil, List.append_nil]
  have hbeat : (r.heartbeat l clock).events = r.sent ++ [.heartbeat r.seq (l.mark clock)] := by
    unfold Reader.events Reader.heartbeat
    rw [hqueue, List.map_nil, List.append_nil]
  have htruthful := h.truthful
  have hbounded := h.bounded
  rw [hevents] at htruthful hbounded
  refine ⟨?_, ?_, fun _ e _ w _ rec hrec => ?_, fun _ => hqueue⟩
  · rw [hbeat]
    refine List.pairwise_append.mpr ⟨htruthful, List.pairwise_singleton _ _, fun a ha b hb w hw => ?_⟩
    rw [List.mem_singleton.mp hb]
    refine ⟨fun t ht => (by cases ht), fun w' hw' => ?_⟩
    rw [← Option.some.inj hw']
    exact hbounded a ha w hw
  · rw [hbeat]
    intro e he w hw
    rcases List.mem_append.mp he with hsent | hnew
    · exact hbounded e hsent w hw
    · rw [List.mem_singleton.mp hnew] at hw
      exact le_of_eq (Option.some.inj hw).symm
  · have hupTo : (r.heartbeat l clock).upTo = r.seq := by
      unfold Reader.upTo Reader.heartbeat
      rw [hqueue]
      rfl
    rw [hupTo, hnone] at hrec
    cases hrec

theorem fetch (hl : l.Sound) (h : Marked l clock r) (hqueue : r.queue = []) (hopen : r.closing = false)
    (hall : l.gone = false → (l.after r.seq).length ≤ batchLimit) {r' : Reader}
    (hr' : r.fetch l clock = some r') : Marked l clock r' := by
  unfold Reader.fetch at hr'
  by_cases hgone : l.gone = true
  · rw [if_pos hgone] at hr'
    cases hr'
  have hrecs : l.readFrom r.seq batchLimit = l.after r.seq := by
    have hlength := hall (Bool.eq_false_iff.mpr hgone)
    rw [hl.after_eq] at hlength ⊢
    rw [hl.readFrom, List.take_of_length_le hlength]
  rw [if_neg hgone, hrecs] at hr'
  dsimp only at hr'
  have hevents : r.events = r.sent := by
    unfold Reader.events
    rw [hqueue, List.map_nil, List.append_nil]
  have hupTo : r.upTo = r.seq := by
    unfold Reader.upTo
    rw [hqueue]
    rfl
  by_cases hnone : l.after r.seq = []
  · rw [if_pos hnone] at hr'
    split_ifs at hr'
    rw [← Option.some.inj hr']
    exact ⟨h.truthful, h.bounded, h.ahead, fun _ => hqueue⟩
  · rw [if_neg hnone] at hr'
    rw [← Option.some.inj hr']
    have hascending : (l.after r.seq).Pairwise fun a b => a.commit < b.commit := by
      rw [hl.after_eq]
      exact hl.ascending.sublist (List.drop_sublist _ _)
    have hmark : ∀ rec ∈ l.after r.seq, rec.commit ≤ l.mark clock := by
      intro rec hrec
      rw [hl.after_eq] at hrec
      exact le_trans (hl.latest rec (List.mem_of_mem_drop hrec)) (last_le_mark l clock)
    obtain ⟨hmarks, hbatch⟩ := batch_marks r.stop hascending hmark
    have hbounded := h.bounded
    have hahead := h.ahead hopen
    rw [hevents] at hbounded hahead
    rw [hupTo] at hahead
    refine ⟨List.pairwise_append.mpr ⟨hevents ▸ h.truthful, hmarks, fun a ha b hb w hw => ?_⟩, fun e he w hw => ?_,
      fun hclosing e he w hw rec hrec => ?_, fun hwaiting => by cases hwaiting⟩
    · refine ⟨fun t ht => ?_, fun w' hw' => ?_⟩
      · obtain ⟨rec, hrec, rfl⟩ := (hbatch b hb).1 t ht
        exact hahead a ha w hw rec hrec
      · rcases (hbatch b hb).2 w' hw' with rfl | ⟨rec, hrec, rfl⟩
        · exact hbounded a ha w hw
        · exact hahead a ha w hw rec hrec
    · rcases List.mem_append.mp he with hsent | hnew
      · exact hbounded e hsent w hw
      · rcases (hbatch e hnew).2 w hw with rfl | ⟨rec, hrec, rfl⟩
        · exact le_refl _
        · exact hmark rec hrec
    · -- everything there is has been fetched
      have hlast : (batch (l.mark clock) r.stop (l.after r.seq)).foldl passed r.seq =
          ((l.after r.seq).getLast?.map Record.seq).getD r.seq := by
        rw [foldl_batch hclosing]
      obtain ⟨last, hget⟩ := Option.ne_none_iff_exists'.mp (mt List.getLast?_eq_none_iff.mp hnone)
      rw [hget] at hlast
      have hend := hl.after_last hget
      change rec ∈ l.after ((batch (l.mark clock) r.stop (l.after r.seq)).foldl passed r.seq) at hrec
      rw [hlast] at hrec
      change rec ∈ l.after last.seq at hrec
      rw [hend] at hrec
      cases hrec

end Marked

def Caught (s : System) : Move → Prop
  | .step => ∀ r ∈ s.reader, r.queue = [] → r.closing = false →
      ∀ l ∈ s.logs[r.log]?, l.gone = false → (l.after r.seq).length ≤ batchLimit
  | .beat => ∀ r ∈ s.reader, r.waiting = true → ∀ l ∈ s.logs[r.log]?, l.after r.seq = []
  | _ => True

instance instDecidableCaught (s : System) : ∀ m, Decidable (Caught s m)
  | .step => inferInstanceAs (Decidable (∀ r ∈ s.reader, r.queue = [] → r.closing = false →
      ∀ l ∈ s.logs[r.log]?, l.gone = false → (l.after r.seq).length ≤ batchLimit))
  | .beat => inferInstanceAs (Decidable (∀ r ∈ s.reader, r.waiting = true →
      ∀ l ∈ s.logs[r.log]?, l.after r.seq = []))
  | .tick _ | .write _ _ _ | .set _ | .save | .restart | .connect _ _ | .hangUp => .isTrue trivial

namespace System

variable {s : System}

theorem marked_move (m : Move) (hm : Caught s m) (hs : s.Sound) (h : Held Marked s) :
    Held Marked (s.move m) := by
  by_cases hreading : m.reading = false
  · exact h.others (fun _ _ _ _ hl hstep hP => hP.logged hl hstep) (fun _ _ _ _ hle hP => hP.later hle)
      hreading hs
  cases m with
  | connect start stop =>
    exact Held.connect start stop fun i l p _ _ _ => Marked.connected l s.clock i stop p.1 p.2
  | step =>
    refine h.step (fun r l msg rest _ _ hqueue hP => hP.send hqueue) fun r l r' hr hl hqueue hopen hP hr' => ?_
    exact hP.fetch (hs.logs l (List.mem_of_getElem? hl)) hqueue hopen (hm r hr hqueue hopen l hl) hr'
  | beat => exact h.beat fun r l hr hl hwaiting hP => hP.heartbeat hwaiting (hm r hr hwaiting l hl)
  | _ => exact absurd rfl hreading

end System

theorem watermarks_are_true {clock : Int} {ms : List Move} (h : System.Along Caught ms (System.start clock)) :
    ∀ r ∈ ((System.start clock).run ms).reader, TrueMarks r.sent := by
  have hstart : (System.start clock).Sound ∧ System.Held Marked (System.start clock) := by
    refine ⟨System.Sound.start clock, fun r hr => ?_⟩
    cases hr
  have hstep : ∀ s m, Caught s m → s.Sound ∧ System.Held Marked s →
      (s.move m).Sound ∧ System.Held Marked (s.move m) :=
    fun s m hm hs => ⟨hs.1.move m, System.marked_move m hm hs.1 hs.2⟩
  have hrun := System.run_induction hstep h hstart
  intro r hr
  obtain ⟨l, -, hmarked⟩ := hrun.2 r hr
  exact (List.pairwise_append.mp hmarked.truthful).1

def sampleWrite : Move := .write [1] [.setCell ⟨[1], [1], 0⟩ [7]] []

def followedRun : List Move :=
  [.set minRetention, sampleWrite, .tick 5000, sampleWrite, .connect (.tokens [(0, [])]) none, .step, .step, .step,
    .step, .tick 7000, .beat, sampleWrite, .step, .step]

theorem followedRun_true : System.Along Caught followedRun (System.start 0) ∧
    (∀ r ∈ ((System.start 0).run followedRun).reader, TrueMarks r.sent) ∧
    ((System.start 0).run followedRun).reader.map (fun r => r.sent.map Event.watermark) =
      some [some 1000, some 5000, some 12000, some 12000] := by
  have hcaught : System.Along Caught followedRun (System.start 0) := by decide +kernel
  exact ⟨hcaught, watermarks_are_true hcaught, by decide +kernel⟩

def behindRun : List Move :=
  .set minRetention :: List.replicate 65 sampleWrite ++
    .tick 90000 :: .connect (.tokens [(0, [])]) none :: List.replicate 67 .step

def overtakenRun : List Move :=
  [.set minRetention, .connect .now none, .step, .tick 1000, sampleWrite, .tick 5000, .beat, .step, .step]

theorem behind_and_overtaken_false : (∃ r ∈ ((System.start 0).run behindRun).reader, ¬ TrueMarks r.sent) ∧
      ∃ r ∈ ((System.start 0).run overtakenRun).reader, ¬ TrueMarks r.sent := by
  decide +kernel

end CloudBurrow.ChangeStreams
