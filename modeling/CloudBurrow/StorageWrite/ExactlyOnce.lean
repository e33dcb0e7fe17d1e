import CloudBurrow.StorageWrite.Steps

namespace CloudBurrow.StorageWrite

open Utf8 Threads

def Covered (f : Front) (i offset : Nat) : Prop :=
  (∃ st, f.heap[i]? = some st ∧ st.typ = .committed) ∨ (∃ upTo, .flushed i upTo ∈ f.replies ∧ offset ≤ upTo) ∨
    ∃ is, .committed is ∈ f.replies ∧ i ∈ is

structure ExactlyOnce (f : Front) : Prop where
  once : (f.table.map Placed.place).Nodup
  covered : ∀ i start rows, .appended i start rows ∈ f.replies → ∀ (j : Nat) row, rows[j]? = some row →
    Covered f i (start + j) → ⟨i, start + j, row⟩ ∈ f.table
  refused : ∀ r wrote, .refused r wrote ∈ f.replies → wrote = []

section Places

theorem flatMap_places {A : Type} {ls : List A} {rows : A → List Placed} {own : A → List Nat}
    (hone : ∀ a ∈ ls, ((rows a).map Placed.place).Nodup ∧ ∀ p ∈ rows a, p.stream ∈ own a)
    (hnodup : (ls.flatMap own).Nodup) : ((ls.flatMap rows).map Placed.place).Nodup := by
  induction ls with
  | nil => exact List.nodup_nil
  | cons a rest ih =>
    rw [List.flatMap_cons, List.nodup_append] at hnodup
    rw [List.flatMap_cons, List.map_append, List.nodup_append]
    refine ⟨(hone a List.mem_cons_self).1, ih (fun b hb => hone b (List.mem_cons_of_mem _ hb)) hnodup.2.1, ?_⟩
    intro x hx y hy heq
    obtain ⟨p, hp, rfl⟩ := List.mem_map.mp hx
    obtain ⟨q, hq, rfl⟩ := List.mem_map.mp hy
    obtain ⟨b, hb, hqb⟩ := List.mem_flatMap.mp hq
    have hpa := (hone a List.mem_cons_self).2 p hp
    have hqown := (hone b (List.mem_cons_of_mem _ hb)).2 q hqb
    have hstream : p.stream = q.stream := congrArg Prod.fst heq
    exact hnodup.2.2 p.stream hpa q.stream (List.mem_flatMap.mpr ⟨b, hb, hqown⟩) hstream

variable {heap : List WriteStream}

structure Pending (heap : List WriteStream) (is : List Nat) (rows : List Placed) : Prop where
  nodup : (rows.map Placed.place).Nodup
  mine : ∀ p ∈ rows, p.stream ∈ is
  after : ∀ p ∈ rows, ∃ st, heap[p.stream]? = some st ∧ st.flushed ≤ p.offset

theorem Pending.nil (heap : List WriteStream) (is : List Nat) : Pending heap is [] :=
  ⟨List.nodup_nil, fun _ hp => absurd hp List.not_mem_nil, fun _ hp => absurd hp List.not_mem_nil⟩

theorem Pending.subperm {is : List Nat} {rows rows' : List Placed} (h : Pending heap is rows')
    (hsub : ∃ more, (rows ++ more).Perm rows') : Pending heap is rows := by
  obtain ⟨more, hperm⟩ := hsub
  have hmem : ∀ p ∈ rows, p ∈ rows' := fun p hp => hperm.mem_iff.mp (List.mem_append_left _ hp)
  refine ⟨?_, fun p hp => h.mine p (hmem p hp), fun p hp => h.after p (hmem p hp)⟩
  have hnodup := (hperm.map Placed.place).nodup_iff.mpr h.nodup
  rw [List.map_append, List.nodup_append] at hnodup
  exact hnodup.1

theorem heldRows_pending (i : Nat) : Pending heap [i] (Front.heldRows heap i) := by
  unfold Front.heldRows
  cases hi : heap[i]? with
  | none => exact Pending.nil heap [i]
  | some st =>
    refine ⟨placed_nodup _, fun p hp => ?_, fun p hp => ?_⟩
    · rw [(mem_placed.mp hp).1]
      exact List.mem_cons_self
    · rw [(mem_placed.mp hp).1]
      exact ⟨st, hi, (mem_placed.mp hp).2.1⟩

theorem allHeld_pending {is todo : List Nat} (hnodup : todo.Nodup) (hsub : ∀ i ∈ todo, i ∈ is) :
    Pending heap is (todo.flatMap (Front.heldRows heap)) := by
  have hof : ∀ p ∈ todo.flatMap (Front.heldRows heap), ∃ i ∈ todo, p ∈ Front.heldRows heap i :=
    fun p hp => List.mem_flatMap.mp hp
  have hself : (todo.flatMap fun i => [i]).Nodup := by
    rw [List.flatMap_singleton']
    exact hnodup
  refine ⟨flatMap_places (fun i _ => ⟨(heldRows_pending i).nodup, (heldRows_pending i).mine⟩) hself,
    fun p hp => ?_, fun p hp => ?_⟩
  · obtain ⟨i, hi, hpi⟩ := hof p hp
    have hstream := List.mem_singleton.mp ((heldRows_pending i).mine p hpi)
    rw [hstream]
    exact hsub i hi
  · obtain ⟨i, -, hpi⟩ := hof p hp
    exact (heldRows_pending i).after p hpi

theorem Job.placed_pending {job : Job} (hready : job.Ready heap) (hnodup : job.streams.Nodup) :
    Pending heap job.streams (job.placed heap) := by
  cases job with
  | append i rows =>
    obtain ⟨st, hi, -⟩ := hready
    simp only [Job.placed, hi, Option.map_some, Option.getD_some]
    refine ⟨placed_nodup _, fun p hp => ?_, fun p hp => ?_⟩
    · rw [(mem_placed.mp hp).1]
      exact List.mem_cons_self
    · rw [(mem_placed.mp hp).1]
      exact ⟨st, hi, le_trans (Nat.sub_le _ _) (mem_placed.mp hp).2.1⟩
  | flush i n offset =>
    exact (heldRows_pending i).subperm ⟨_, List.Perm.of_eq (List.take_append_drop n _)⟩
  | commit is => exact allHeld_pending hnodup fun i hi => hi

theorem Thread.extra_pending {t : Thread} (h : t.Local heap) (hnodup : t.owned.Nodup) :
    Pending heap t.owned (t.extra heap) := by
  cases t with
  | inserting job left wrote => exact (Job.placed_pending h.2 hnodup).subperm ⟨_, h.1⟩
  | committing is todo => exact allHeld_pending h.1 h.2.1
  | dropping is i todo => exact allHeld_pending h.2.1 h.2.2.1
  | _ => exact Pending.nil heap _

end Places

section Invariant

variable {s : Sys Front Thread}

theorem Inv.owned_nodup (h : Inv s) {t : Thread} (ht : t ∈ s.threads) : t.owned.Nodup :=
  (List.nodup_flatMap.mp h.leased.once).1 t ht

theorem Inv.once (h : Inv s) : (s.shared.table.map Placed.place).Nodup := by
  have hcalls : ∀ t ∈ s.threads, Pending s.shared.heap t.owned (t.extra s.shared.heap) :=
    fun t ht => Thread.extra_pending (h.calls t ht) (h.owned_nodup ht)
  rw [(h.account.map Placed.place).nodup_iff, List.map_append, List.nodup_append]
  refine ⟨settledFrom_nodup 0 s.shared.heap, ?_, fun x hx y hy heq => ?_⟩
  · exact flatMap_places (fun t ht => ⟨(hcalls t ht).nodup, (hcalls t ht).mine⟩) h.leased.once
  · obtain ⟨p, hp, rfl⟩ := List.mem_map.mp hx
    obtain ⟨q, hq, rfl⟩ := List.mem_map.mp hy
    obtain ⟨t, ht, hqt⟩ := List.mem_flatMap.mp hq
    obtain ⟨st, hst, hrow⟩ := mem_settled.mp hp
    obtain ⟨st', hst', hafter⟩ := (hcalls t ht).after q hqt
    have hstream : p.stream = q.stream := congrArg Prod.fst heq
    have hoffset : p.offset = q.offset := congrArg Prod.snd heq
    rw [← hstream, hst] at hst'
    cases hst'
    have hlt := (List.getElem?_eq_some_iff.mp hrow).1
    rw [(h.shape _ st hst).landed_length] at hlt
    omega

theorem Inv.landed (h : Inv s) {i offset : Nat} {st : WriteStream} {row : Bytes} (hi : s.shared.heap[i]? = some st)
    (hoffset : offset < st.flushed) (hrow : st.appended[offset]? = some row) : ⟨i, offset, row⟩ ∈ s.shared.table := by
  refine h.account.mem_iff.mpr (List.mem_append_left _ (mem_settled.mpr ⟨st, hi, ?_⟩))
  unfold WriteStream.landed
  rw [List.getElem?_take_of_lt hoffset]
  exact hrow

theorem Inv.exactlyOnce (h : Inv s) : ExactlyOnce s.shared := by
  refine ⟨h.once, fun i start rows happended j row hrow hcovered => ?_, fun r wrote hr => h.replies _ hr⟩
  obtain ⟨st, hst, hrows, hdirect⟩ := h.replies _ happended
  have hat := hrows j row hrow
  have hj := (List.getElem?_eq_some_iff.mp hrow).1
  refine h.landed hst ?_ hat
  rcases hcovered with ⟨st', hst', htyp⟩ | ⟨upTo, hflushed, hle⟩ | ⟨is, hcommitted, hi⟩
  · rw [hst] at hst'
    cases hst'
    have hlanded := hdirect htyp
    omega
  · obtain ⟨st', hst', hlt⟩ := h.replies _ hflushed
    rw [hst] at hst'
    cases hst'
    omega
  · obtain ⟨st', hst', hdone⟩ := h.replies _ hcommitted i hi
    rw [hst] at hst'
    cases hst'
    have hshape := h.shape i st hst
    have hall := (hshape.landed_eq (hshape.done hdone)).2
    have hlt := (List.getElem?_eq_some_iff.mp hat).1
    have hcounted := hshape.counted
    omega

end Invariant

def Call.Distinct : Call → Prop
  | .commit _ names => names.Nodup
  | _ => True

instance : ∀ c : Call, Decidable c.Distinct
  | .commit _ names => inferInstanceAs (Decidable names.Nodup)
  | .create _ _ | .get _ | .append _ _ _ | .flush _ _ | .finalize _ => .isTrue trivial

def Thread.FailsFirst (ok : Bool) : Thread → Prop
  | .inserting _ (_ :: _) wrote => ok = false → wrote = []
  | _ => True

instance (ok : Bool) : ∀ t : Thread, Decidable (t.FailsFirst ok)
  | .inserting _ (_ :: _) wrote => inferInstanceAs (Decidable (ok = false → wrote = []))
  | .inserting _ [] _ | .call _ | .creating _ | .remembering _ | .makeDefault _ _ | .rememberDefault _ _
  | .forgetting _ _ | .answering _ | .found _ _ | .opening _ _ | .writing _ _ | .accepting _ _ _
  | .looking _ _ _ _ _ _ | .locking _ _ _ _ | .committing _ _ | .dropping _ _ _ => .isTrue trivial

def Single : Move Thread Input → Sys Front Thread → Prop
  | .enter t, _ => ∃ c, t = .call c ∧ c.Distinct
  | .step i input, s => ∀ t ∈ s.threads[i]?, t.FailsFirst input.ok

instance instDecidableSingle : ∀ m s, Decidable (Single m s)
  | .step i input, s => inferInstanceAs (Decidable (∀ t ∈ s.threads[i]?, t.FailsFirst input.ok))
  | .enter (.call c), _ => decidable_of_iff c.Distinct
      ⟨fun h => ⟨c, rfl, h⟩, fun ⟨_, hc, h⟩ => Thread.call.inj hc ▸ h⟩
  | .enter (.inserting _ _ _), _ | .enter (.creating _), _ | .enter (.remembering _), _ | .enter (.makeDefault _ _), _
  | .enter (.rememberDefault _ _), _ | .enter (.forgetting _ _), _ | .enter (.answering _), _ | .enter (.found _ _), _
  | .enter (.opening _ _), _ | .enter (.writing _ _), _ | .enter (.accepting _ _ _), _
  | .enter (.looking _ _ _ _ _ _), _ | .enter (.locking _ _ _ _), _ | .enter (.committing _ _), _
  | .enter (.dropping _ _ _), _ => .isFalse fun ⟨_, hc, _⟩ => Thread.noConfusion hc

theorem rows_land_exactly_once (keeps : Bool) {ms : List (Move Thread Input)}
    (h : program.Along Single ms ⟨Front.start keeps, []⟩) :
    ExactlyOnce (program.run ms ⟨Front.start keeps, []⟩).shared := by
  have hstart : Inv ⟨Front.start keeps, []⟩ := by
    refine ⟨fun i st hst => ?_, fun n i hi => ?_, Leased.empty, fun t ht => ?_, List.Perm.nil, fun r hr => ?_⟩
    · cases hst
    · cases hi
    · cases ht
    · cases hr
  refine Inv.exactlyOnce (Program.invariant (fun s t hok hs => ?_) (fun f i input left t right hok hget hs => ?_) h
    hstart)
  · obtain ⟨c, rfl, hdistinct⟩ := hok
    have hlocal : (Thread.call c).Local s.shared.heap := by
      cases c with
      | commit parent names => exact hdistinct
      | _ => trivial
    refine ⟨hs.shape, hs.named, ?_, fun t' ht' => ?_, ?_, hs.replies⟩
    · exact hs.leased
    · rcases List.mem_cons.mp ht' with rfl | hold
      · exact hlocal
      · exact hs.calls t' hold
    · exact hs.account
  · have hmem : t ∈ left ++ t :: right := List.mem_append_right _ List.mem_cons_self
    refine hs.step (advance_kept ⟨hs.shape, hs.named⟩ input (hs.owned_nodup hmem) (hs.calls t hmem) ?_)
    rintro job b rest wrote rfl
    exact hok _ hget

section Runs

def sampleTable : ReadTable := ⟨[112], [100], [116]⟩

def sampleStream (id : UInt8) : StreamName := ⟨sampleTable, [id]⟩

def sampleRow (b : UInt8) (h : b ≠ 10 ∧ b ≠ 13) : Row :=
  ⟨[b], fun hmem => h.1 (List.mem_singleton.mp hmem).symm, fun hmem => h.2 (List.mem_singleton.mp hmem).symm⟩

def serve (c : Call) (n : Nat) : List (Move Thread Input) :=
  .enter (.call c) :: List.replicate n (.step 0 ⟨true, 0, [], 0⟩)

def make (typ : StreamType) (id : UInt8) : List (Move Thread Input) :=
  .enter (.call (.create sampleTable typ)) :: .step 0 ⟨true, 0, [id], 0⟩ :: List.replicate 3 (.step 0 ⟨true, 0, [], 0⟩)

def landedRun : List (Move Thread Input) :=
  make .pending 1 ++ make .buffered 2 ++
  serve (.append (sampleStream 1) (some 0) [sampleRow 65 (by decide)]) 5 ++
  serve (.append (sampleStream 2) none [sampleRow 66 (by decide), sampleRow 67 (by decide)]) 5 ++
  serve (.finalize (sampleStream 1)) 2 ++
  serve (.flush (sampleStream 2) (some 0)) 2 ++ .step 0 ⟨false, 0, [], 0⟩ ::
  serve (.commit sampleTable [sampleStream 1]) 5 ++ serve (.flush (sampleStream 2) (some 1)) 4 ++
  List.replicate 6 (.step 0 ⟨true, 0, [], 0⟩)

theorem landedRun_once : program.Along Single landedRun ⟨Front.start true, []⟩ ∧
    ExactlyOnce (program.run landedRun ⟨Front.start true, []⟩).shared ∧
    (program.run landedRun ⟨Front.start true, []⟩).shared.table = [⟨1, 0, [66]⟩, ⟨1, 1, [67]⟩, ⟨0, 0, [65]⟩] ∧
    Reply.committed [0] ∈ (program.run landedRun ⟨Front.start true, []⟩).shared.replies := by
  have hsingle : program.Along Single landedRun ⟨Front.start true, []⟩ := by decide +kernel
  exact ⟨hsingle, rows_land_exactly_once true hsingle, by decide +kernel, by decide +kernel⟩

def twiceRun : List (Move Thread Input) :=
  make .pending 1 ++ serve (.append (sampleStream 1) none [sampleRow 65 (by decide)]) 5 ++
  serve (.finalize (sampleStream 1)) 2 ++ serve (.commit sampleTable [sampleStream 1, sampleStream 1]) 12

theorem insertBatches_pair {a b : Placed} (h : insertAllBatch < a.row.length + 16 + b.row.length) :
    insertBatches [a, b] = [[a], [b]] := by
  have hnot : ¬ a.row.length + 16 + b.row.length ≤ insertAllBatch := by omega
  have htake : takeBatch (a.row.length + 16) [b] = ([], [b]) := by
    unfold takeBatch
    rw [if_neg hnot]
  unfold insertBatches
  change batches (1 + 1) [a, b] = _
  unfold batches
  dsimp only
  rw [htake]
  rfl

def heldRun (a b : Row) : List (Move Thread Input) :=
  make .buffered 1 ++ serve (.append (sampleStream 1) none [a, b]) 5

def madeFront : Front :=
  ⟨[.new (sampleStream 1) .buffered false 0], Function.update (fun _ => none) (sampleStream 1) (some 0),
    [sampleStream 1], ∅, [], false, ⟨∅, ∅⟩, [[1]], [.created 0]⟩

def heldFront (a b : Row) : Front :=
  { madeFront with
    heap := [(WriteStream.new (sampleStream 1) .buffered false 0).holding 0 [a.json, b.json]]
    locks := insert 0 ∅ \ {0}, replies := [.created 0, .appended 0 0 [a.json, b.json]] }

theorem heldRun_front (a b : Row) : program.run (heldRun a b) ⟨Front.start false, []⟩ = ⟨heldFront a b, []⟩ := by
  have hmade : program.run (make .buffered 1) ⟨Front.start false, []⟩ = ⟨madeFront, []⟩ := rfl
  unfold heldRun
  rw [Program.run_append, hmade]
  rfl

def halfFlush : List (Move Thread Input) :=
  serve (.flush (sampleStream 1) (some 1)) 2 ++ [.step 0 ⟨true, 0, [], 0⟩, .step 0 ⟨false, 0, [], 0⟩]

theorem halfFlush_refused {a b : Row} (h : insertAllBatch < a.json.length + 16 + b.json.length) :
    Reply.refused .writing [⟨0, 0, a.json⟩] ∈ (program.run halfFlush ⟨heldFront a b, []⟩).shared.replies := by
  have hbatches : insertBatches [⟨0, 0, a.json⟩, ⟨0, 1, b.json⟩] = [[⟨0, 0, a.json⟩], [⟨0, 1, b.json⟩]] :=
    insertBatches_pair h
  have hthreads : (program.run (serve (.flush (sampleStream 1) (some 1)) 2) ⟨heldFront a b, []⟩).threads =
      [.inserting (.flush 0 2 1) (insertBatches [⟨0, 0, a.json⟩, ⟨0, 1, b.json⟩]) []] := rfl
  unfold halfFlush
  rw [Program.run_append]
  generalize program.run (serve (.flush (sampleStream 1) (some 1)) 2) ⟨heldFront a b, []⟩ = s at hthreads ⊢
  obtain ⟨f, threads⟩ := s
  rw [hbatches] at hthreads
  obtain rfl : threads = _ := hthreads
  change _ ∈ f.replies ++ [Reply.refused .writing [⟨0, 0, a.json⟩]]
  simp

def largeRow : Row :=
  ⟨List.replicate insertAllBatch 65, fun h => absurd (List.eq_of_mem_replicate h) (by decide),
    fun h => absurd (List.eq_of_mem_replicate h) (by decide)⟩

theorem largeRow_length : largeRow.json.length = insertAllBatch := List.length_replicate

theorem landed_twice_or_in_part :
    ((program.run twiceRun ⟨Front.start true, []⟩).shared.table = [⟨0, 0, [65]⟩, ⟨0, 0, [65]⟩] ∧
      Reply.committed [0] ∈ (program.run twiceRun ⟨Front.start true, []⟩).shared.replies) ∧
    ∃ a b : Row, Reply.refused .writing [⟨0, 0, a.json⟩] ∈
      (program.run (heldRun a b ++ halfFlush) ⟨Front.start false, []⟩).shared.replies := by
  refine ⟨by decide +kernel, largeRow, sampleRow 66 (by decide), ?_⟩
  rw [Program.run_append, heldRun_front]
  apply halfFlush_refused
  rw [largeRow_length]
  omega

end Runs

end CloudBurrow.StorageWrite
