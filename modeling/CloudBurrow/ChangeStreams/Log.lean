import CloudBurrow.Codec.Utf8
import CloudBurrow.Process.BinarySearch

namespace CloudBurrow.ChangeStreams

open Utf8 BinarySearch

def micros (t : Int) : Int := t - t % 1000

structure Cell where
  family : Bytes
  qualifier : Bytes
  timestamp : Int
deriving DecidableEq

inductive Mutation where
  | setCell (cell : Cell) (value : Bytes)
  | other (encoded : Bytes)
deriving DecidableEq

structure Record where
  seq : Int
  row : Bytes
  cluster : Bytes
  commit : Int
  mutations : List Mutation
deriving DecidableEq

structure Log where
  retention : Int
  since : Int
  segs : List (List Record)
  tail : List Record
  nextSeq : Int
  trimmed : Int
  last : Int
  gone : Bool
  logged : List Record
deriving DecidableEq

def segmentRecords : Nat := 256

def Log.enabled (retention now : Int) : Log := ⟨retention, micros now, [], [], 1, 0, 0, false, []⟩

def trimSegs (cutoff : Int) : List (List Record) → Int → List (List Record) × Int
  | [], trimmed => ([], trimmed)
  | recs :: rest, trimmed =>
    match recs.getLast? with
    | none => trimSegs cutoff rest trimmed
    | some r => if cutoff ≤ r.commit then (recs :: rest, trimmed) else trimSegs cutoff rest r.seq

def trimTail (cutoff : Int) : List Record → Int → List Record × Int
  | [], trimmed => ([], trimmed)
  | r :: rest, trimmed => if r.commit < cutoff then trimTail cutoff rest r.seq else (r :: rest, trimmed)

def Log.trim (l : Log) (now : Int) : Log :=
  let cutoff := now - l.retention
  let segs := trimSegs cutoff l.segs l.trimmed
  let tail := if segs.1 = [] then trimTail cutoff l.tail segs.2 else (l.tail, segs.2)
  { l with segs := segs.1, tail := tail.1, trimmed := tail.2 }

def Log.commitTime (l : Log) (now : Int) : Int :=
  if l.last < micros now then micros now else l.last + 1000

def Log.append (l : Log) (now : Int) (row : Bytes) (mutations : List Mutation) (cluster : Bytes) : Log :=
  if mutations = [] then l
  else
    let entry : Record := ⟨l.nextSeq, row, cluster, l.commitTime now, mutations⟩
    let tail := l.tail ++ [entry]
    let full := segmentRecords ≤ tail.length
    let l : Log := { l with
      last := entry.commit, nextSeq := l.nextSeq + 1, logged := l.logged ++ [entry]
      segs := if full then l.segs ++ [tail] else l.segs
      tail := if full then [] else tail }
    l.trim now

def addRecords (seq : Int) (limit : Nat) (out recs : List Record) : List Record :=
  let i := search recs.length fun i => (recs[i]?.map fun r => decide (seq < r.seq)).getD true
  out ++ (recs.drop i).take (limit - out.length)

def addSegment (seq : Int) (limit : Nat) (out seg : List Record) : List Record :=
  if limit ≤ out.length then out
  else
    match seg.getLast? with
    | none => out
    | some r => if seq < r.seq then addRecords seq limit out seg else out

def Log.readFrom (l : Log) (seq : Int) (limit : Nat) : List Record :=
  let out := l.segs.foldl (addSegment seq limit) []
  if out.length < limit then addRecords seq limit out l.tail else out

def Log.mark (l : Log) (now : Int) : Int := if micros now < l.last then l.last else micros now

def seqFrom (t : Int) : List Record → Int → Int
  | [], seq => seq
  | r :: rest, seq => if r.commit < t then seqFrom t rest r.seq else seq

def Log.seqAt (l : Log) (t : Int) : Int := seqFrom t (l.segs.flatten ++ l.tail) l.trimmed

structure SavedLog where
  retention : Int
  since : Int
  nextSeq : Int
  trimmed : Int
  last : Int
  segments : List (List Record)
  tail : List Record
  logged : List Record

def Log.saved (l : Log) : SavedLog :=
  ⟨l.retention, l.since, l.nextSeq, l.trimmed, l.last, l.segs, l.tail, l.logged⟩

def SavedLog.restored (s : SavedLog) : Log :=
  { retention := s.retention, since := s.since
    segs := s.segments.filter fun recs => !recs.isEmpty
    tail := s.tail, nextSeq := if s.nextSeq < 1 then 1 else s.nextSeq
    trimmed := s.trimmed, last := s.last, gone := false, logged := s.logged }

structure Log.Sound (l : Log) : Prop where
  numbered : ∀ (i : Nat) r, l.logged[i]? = some r → r.seq = i + 1
  next : l.nextSeq = l.logged.length + 1
  ascending : l.logged.Pairwise fun a b => a.commit < b.commit
  latest : ∀ r ∈ l.logged, r.commit ≤ l.last
  low : 0 ≤ l.trimmed
  high : l.trimmed ≤ l.logged.length
  kept : l.segs.flatten ++ l.tail = l.logged.drop l.trimmed.toNat

def Cut (recs left : List Record) (trimmed trimmed' : Int) : Prop :=
  ∃ dropped, recs = dropped ++ left ∧ trimmed' = (dropped.getLast?.map Record.seq).getD trimmed

theorem Cut.refl (recs : List Record) (trimmed : Int) : Cut recs recs trimmed trimmed := ⟨[], rfl, rfl⟩

theorem Cut.after {recs left : List Record} {trimmed trimmed' : Int} {front : List Record} {r : Record}
    (hlast : front.getLast? = some r) (h : Cut recs left r.seq trimmed') :
    Cut (front ++ recs) left trimmed trimmed' := by
  obtain ⟨dropped, rfl, rfl⟩ := h
  refine ⟨front ++ dropped, (List.append_assoc _ _ _).symm, ?_⟩
  rw [List.getLast?_append, hlast]
  cases dropped.getLast? <;> rfl

theorem trimSegs_cut (cutoff : Int) (segs : List (List Record)) (trimmed : Int) :
    Cut segs.flatten (trimSegs cutoff segs trimmed).1.flatten trimmed (trimSegs cutoff segs trimmed).2 := by
  induction segs generalizing trimmed with
  | nil => exact Cut.refl _ _
  | cons recs rest ih =>
    unfold trimSegs
    cases hlast : recs.getLast? with
    | none =>
      rw [List.getLast?_eq_none_iff] at hlast
      subst hlast
      exact ih trimmed
    | some r =>
      dsimp only
      split_ifs
      · exact Cut.refl _ _
      · exact Cut.after hlast (ih r.seq)

theorem trimTail_cut (cutoff : Int) (recs : List Record) (trimmed : Int) :
    Cut recs (trimTail cutoff recs trimmed).1 trimmed (trimTail cutoff recs trimmed).2 := by
  induction recs generalizing trimmed with
  | nil => exact Cut.refl _ _
  | cons r rest ih =>
    unfold trimTail
    split_ifs
    · have hlast : [r].getLast? = some r := rfl
      exact Cut.after hlast (ih r.seq)
    · exact Cut.refl _ _

theorem trim_cut (l : Log) (now : Int) :
    Cut (l.segs.flatten ++ l.tail) ((l.trim now).segs.flatten ++ (l.trim now).tail) l.trimmed
      (l.trim now).trimmed := by
  obtain ⟨dropped, hsegs, htrimmed⟩ := trimSegs_cut (now - l.retention) l.segs l.trimmed
  unfold Log.trim
  dsimp only
  split_ifs with hnone
  · obtain ⟨dropped', htail, htrimmed'⟩ := trimTail_cut (now - l.retention) l.tail
      (trimSegs (now - l.retention) l.segs l.trimmed).2
    rw [hnone] at hsegs ⊢
    refine ⟨dropped ++ dropped', ?_, ?_⟩
    · rw [hsegs, List.flatten_nil, List.append_nil, List.nil_append, List.append_assoc, ← htail]
    · rw [htrimmed', htrimmed, List.getLast?_append]
      cases dropped'.getLast? <;> rfl
  · refine ⟨dropped, ?_, htrimmed⟩
    rw [hsegs, List.append_assoc]

namespace Log.Sound

variable {l : Log}

theorem trim_trimmed (h : l.Sound) {now : Int} {dropped : List Record}
    (hsplit : l.segs.flatten ++ l.tail = dropped ++ ((l.trim now).segs.flatten ++ (l.trim now).tail))
    (htrimmed : (l.trim now).trimmed = (dropped.getLast?.map Record.seq).getD l.trimmed) :
    (l.trim now).trimmed = l.trimmed + dropped.length := by
  have hlow := h.low
  rw [htrimmed]
  rcases List.eq_nil_or_concat dropped with rfl | ⟨front, r, rfl⟩
  · simp
  · have hat : l.logged[l.trimmed.toNat + front.length]? = some r := by
      rw [← List.getElem?_drop, ← h.kept, hsplit]
      simp
    have hseq := h.numbered _ r hat
    rw [List.concat_eq_append, List.getLast?_concat, List.length_append, List.length_singleton]
    change r.seq = _
    rw [hseq]
    push_cast
    omega

theorem trimmed_le_trim (h : l.Sound) (now : Int) : l.trimmed ≤ (l.trim now).trimmed := by
  obtain ⟨dropped, hsplit, htrimmed⟩ := trim_cut l now
  have hcount := h.trim_trimmed hsplit htrimmed
  omega

theorem trim (h : l.Sound) (now : Int) : (l.trim now).Sound := by
  obtain ⟨dropped, hsplit, htrimmed⟩ := trim_cut l now
  have hcount := h.trim_trimmed hsplit htrimmed
  have hkept : l.logged.drop l.trimmed.toNat =
      dropped ++ ((l.trim now).segs.flatten ++ (l.trim now).tail) := h.kept.symm.trans hsplit
  have hlow := h.low
  have hhigh := h.high
  have hlength := congrArg List.length hkept
  rw [List.length_drop, List.length_append] at hlength
  refine ⟨h.numbered, h.next, h.ascending, h.latest, ?_, ?_, ?_⟩
  · omega
  · change (l.trim now).trimmed ≤ l.logged.length
    omega
  · change _ = l.logged.drop _
    have htoNat : (l.trim now).trimmed.toNat = l.trimmed.toNat + dropped.length := by omega
    rw [htoNat, ← List.drop_drop, hkept, List.drop_left]

theorem enabled (retention now : Int) : (Log.enabled retention now).Sound := by
  refine ⟨?_, rfl, List.Pairwise.nil, ?_, le_refl _, le_refl _, rfl⟩
  · intro i r hr
    cases hr
  · intro r hr
    cases hr

theorem restored (h : l.Sound) : l.saved.restored.Sound := by
  have hsegs : ∀ segs : List (List Record), (segs.filter fun recs => !recs.isEmpty).flatten = segs.flatten := by
    intro segs
    induction segs with
    | nil => rfl
    | cons recs rest ih => cases recs <;> simp [ih]
  have hnext : l.saved.restored.nextSeq = l.logged.length + 1 := by
    have h1 := h.next
    change (if l.nextSeq < 1 then 1 else l.nextSeq) = _
    split_ifs <;> omega
  refine ⟨h.numbered, hnext, h.ascending, h.latest, h.low, h.high, ?_⟩
  change (l.segs.filter _).flatten ++ l.tail = _
  rw [hsegs]
  exact h.kept

end Log.Sound

theorem last_lt_commitTime (l : Log) (now : Int) : l.last < l.commitTime now := by
  unfold Log.commitTime
  split_ifs <;> omega

theorem micros_le_commitTime (l : Log) (now : Int) : micros now ≤ l.commitTime now := by
  unfold Log.commitTime
  split_ifs <;> omega

theorem micros_mono {t t' : Int} (h : t ≤ t') : micros t ≤ micros t' := by
  unfold micros
  omega

theorem mark_le_commitTime (l : Log) {now now' : Int} (h : now ≤ now') : l.mark now ≤ l.commitTime now' := by
  have hmicros := micros_mono h
  have hlast := last_lt_commitTime l now'
  have hnow := micros_le_commitTime l now'
  unfold Log.mark
  split_ifs <;> omega

def Log.extended (l : Log) (entry : Record) : Log :=
  { l with
    last := entry.commit, nextSeq := l.nextSeq + 1, logged := l.logged ++ [entry]
    segs := if segmentRecords ≤ (l.tail ++ [entry]).length then l.segs ++ [l.tail ++ [entry]] else l.segs
    tail := if segmentRecords ≤ (l.tail ++ [entry]).length then [] else l.tail ++ [entry] }

theorem append_eq (l : Log) (now : Int) (row : Bytes) (mutations : List Mutation) (cluster : Bytes) :
    l.append now row mutations cluster = if mutations = [] then l else
      (l.extended ⟨l.nextSeq, row, cluster, l.commitTime now, mutations⟩).trim now := rfl

namespace Log.Sound

variable {l : Log}

theorem extended (h : l.Sound) {entry : Record} (hseq : entry.seq = l.nextSeq)
    (hcommit : l.last < entry.commit) : (l.extended entry).Sound := by
  have hnext := h.next
  have hhigh := h.high
  refine ⟨fun i r hr => ?_, ?_, ?_, fun r hr => ?_, h.low, ?_, ?_⟩
  · change (l.logged ++ [entry])[i]? = some r at hr
    rcases Nat.lt_or_ge i l.logged.length with hi | hi
    · rw [List.getElem?_append_left hi] at hr
      exact h.numbered i r hr
    · rw [List.getElem?_append_right hi] at hr
      obtain ⟨hi', rfl⟩ := List.getElem?_eq_some_iff.mp hr
      rw [List.length_singleton] at hi'
      rw [List.getElem_singleton, hseq, hnext]
      omega
  · change l.nextSeq + 1 = ((l.logged ++ [entry]).length : Int) + 1
    rw [List.length_append, List.length_singleton]
    omega
  · refine List.pairwise_append.mpr ⟨h.ascending, List.pairwise_singleton _ _, fun a ha b hb => ?_⟩
    rw [List.mem_singleton.mp hb]
    exact lt_of_le_of_lt (h.latest a ha) hcommit
  · rcases List.mem_append.mp hr with hold | hnew
    · exact le_of_lt (lt_of_le_of_lt (h.latest r hold) hcommit)
    · rw [List.mem_singleton.mp hnew]
      exact le_refl _
  · change l.trimmed ≤ ((l.logged ++ [entry]).length : Int)
    rw [List.length_append]
    omega
  · have hrecs : (l.extended entry).segs.flatten ++ (l.extended entry).tail =
        l.segs.flatten ++ l.tail ++ [entry] := by
      unfold Log.extended
      dsimp only
      split_ifs <;> simp
    rw [hrecs, h.kept]
    change _ = (l.logged ++ [entry]).drop l.trimmed.toNat
    rw [List.drop_append_of_le_length (by omega)]

theorem append (h : l.Sound) (now : Int) (row : Bytes) (mutations : List Mutation) (cluster : Bytes) :
    (l.append now row mutations cluster).Sound := by
  rw [append_eq]
  split_ifs
  · exact h
  · exact (h.extended rfl (last_lt_commitTime l now)).trim now

theorem filter_seq (h : l.Sound) (k : Nat) (seq : Int) :
    (l.logged.drop k).filter (fun r => decide (seq < r.seq)) = l.logged.drop (max k seq.toNat) := by
  have hat : ∀ (i : Nat) r, (l.logged.drop k)[i]? = some r → r.seq = (k + i : Int) + 1 := by
    intro i r hr
    rw [List.getElem?_drop] at hr
    have hseq := h.numbered _ r hr
    push_cast at hseq
    exact hseq
  have hcut : max k seq.toNat = k + (seq.toNat - k) := by omega
  rw [hcut, ← List.drop_drop]
  generalize l.logged.drop k = recs at hat
  have hfront : ∀ r ∈ recs.take (seq.toNat - k), ¬ decide (seq < r.seq) = true := by
    intro r hr
    obtain ⟨i, hi, rfl⟩ := List.mem_iff_getElem.mp hr
    rw [List.length_take] at hi
    rw [List.getElem_take, hat i _ (List.getElem?_eq_getElem (by omega)), decide_eq_true_iff]
    omega
  have hback : ∀ r ∈ recs.drop (seq.toNat - k), decide (seq < r.seq) = true := by
    intro r hr
    obtain ⟨i, hi, rfl⟩ := List.mem_iff_getElem.mp hr
    rw [List.length_drop] at hi
    rw [List.getElem_drop, hat _ _ (List.getElem?_eq_getElem (by omega)), decide_eq_true_iff]
    push_cast
    omega
  calc recs.filter (fun r => decide (seq < r.seq))
      = (recs.take (seq.toNat - k)).filter (fun r => decide (seq < r.seq)) ++
          (recs.drop (seq.toNat - k)).filter (fun r => decide (seq < r.seq)) := by
        rw [← List.filter_append, List.take_append_drop]
    _ = recs.drop (seq.toNat - k) := by
        rw [List.filter_eq_nil_iff.mpr hfront, List.filter_eq_self.mpr hback, List.nil_append]

theorem seqs_ascend (h : l.Sound) : (l.segs.flatten ++ l.tail).Pairwise fun a b => a.seq < b.seq := by
  rw [h.kept]
  refine List.Pairwise.sublist (List.drop_sublist _ _) ?_
  rw [List.pairwise_iff_getElem]
  intro i j hi hj hij
  rw [h.numbered i _ (List.getElem?_eq_getElem hi), h.numbered j _ (List.getElem?_eq_getElem hj)]
  omega

end Log.Sound

section Reading

variable {seq : Int} {limit : Nat}

theorem addRecords_eq {out recs : List Record} (h : recs.Pairwise fun a b => a.seq < b.seq) :
    addRecords seq limit out recs =
      out ++ (recs.filter fun r => decide (seq < r.seq)).take (limit - out.length) := by
  have hmono : recs.Pairwise fun a b => decide (seq < a.seq) = true → decide (seq < b.seq) = true :=
    h.imp fun hab ha => decide_eq_true (lt_trans (of_decide_eq_true ha) hab)
  unfold addRecords
  dsimp only
  rw [drop_search hmono]

theorem filter_of_last {recs : List Record} {r : Record} (h : recs.Pairwise fun a b => a.seq < b.seq)
    (hlast : recs.getLast? = some r) (hr : ¬ seq < r.seq) :
    recs.filter (fun r => decide (seq < r.seq)) = [] := by
  rw [List.filter_eq_nil_iff]
  intro a ha hlt
  obtain ⟨front, rfl⟩ := List.getLast?_eq_some_iff.mp hlast
  rcases List.mem_append.mp ha with hfront | hback
  · have hbelow := (List.pairwise_append.mp h).2.2 a hfront r (by simp)
    exact hr (lt_trans (of_decide_eq_true hlt) hbelow)
  · rw [List.mem_singleton.mp hback] at hlt
    exact hr (of_decide_eq_true hlt)

theorem addSegment_take {recs seg : List Record} (h : seg.Pairwise fun a b => a.seq < b.seq) :
    addSegment seq limit ((recs.filter fun r => decide (seq < r.seq)).take limit) seg =
      ((recs ++ seg).filter fun r => decide (seq < r.seq)).take limit := by
  have htake : ∀ xs ys : List Record, xs.take limit ++ ys.take (limit - (xs.take limit).length) =
      (xs ++ ys).take limit := by
    intro xs ys
    rw [List.take_append, List.length_take]
    congr 2
    omega
  unfold addSegment
  rw [List.filter_append]
  split_ifs with hfull
  · rw [List.length_take] at hfull
    rw [List.take_append_of_le_length (by omega)]
  · cases hlast : seg.getLast? with
    | none =>
      rw [List.getLast?_eq_none_iff] at hlast
      rw [hlast, List.filter_nil, List.append_nil]
    | some r =>
      dsimp only
      split_ifs with hr
      · rw [addRecords_eq h, htake]
      · rw [filter_of_last h hlast hr, List.append_nil]

end Reading

theorem foldl_addSegment (seq : Int) (limit : Nat) (segs : List (List Record)) (recs : List Record)
    (h : ∀ seg ∈ segs, seg.Pairwise fun a b => a.seq < b.seq) :
    segs.foldl (addSegment seq limit) ((recs.filter fun r => decide (seq < r.seq)).take limit) =
      ((recs ++ segs.flatten).filter fun r => decide (seq < r.seq)).take limit := by
  induction segs generalizing recs with
  | nil => rw [List.foldl_nil, List.flatten_nil, List.append_nil]
  | cons seg rest ih =>
    obtain ⟨hseg, hrest⟩ := List.forall_mem_cons.mp h
    rw [List.foldl_cons, addSegment_take hseg, ih (recs ++ seg) hrest, List.flatten_cons, List.append_assoc]

theorem Log.Sound.readFrom {l : Log} (h : l.Sound) (seq : Int) (limit : Nat) :
    l.readFrom seq limit = (l.logged.drop (max l.trimmed.toNat seq.toNat)).take limit := by
  have hascend := h.seqs_ascend
  have hsegs : ∀ seg ∈ l.segs, seg.Pairwise fun a b => a.seq < b.seq := fun seg hseg =>
    (List.pairwise_append.mp hascend).1.sublist (List.sublist_flatten_of_mem hseg)
  have hfold : l.segs.foldl (addSegment seq limit) [] =
      (l.segs.flatten.filter fun r => decide (seq < r.seq)).take limit := by
    have hnil := foldl_addSegment seq limit l.segs [] hsegs
    simpa using hnil
  rw [← h.filter_seq, ← h.kept, List.filter_append]
  unfold Log.readFrom
  dsimp only
  rw [hfold]
  split_ifs with hmore
  · rw [addRecords_eq (List.pairwise_append.mp hascend).2.1, List.take_append, List.length_take]
    congr 2
    omega
  · rw [List.length_take] at hmore
    rw [List.take_append_of_le_length (by omega)]

end CloudBurrow.ChangeStreams
