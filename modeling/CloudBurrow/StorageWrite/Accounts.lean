import CloudBurrow.StorageWrite.Front

namespace CloudBurrow.StorageWrite

open Utf8 Threads

section Placing

variable {i offset : Nat}

theorem placed_append (xs ys : List Bytes) :
    placed i offset (xs ++ ys) = placed i offset xs ++ placed i (offset + xs.length) ys := by
  induction xs generalizing offset with
  | nil => rfl
  | cons x xs ih =>
    rw [List.cons_append, placed, placed, ih, List.cons_append, List.length_cons]
    congr 3
    omega

theorem mem_placed {rows : List Bytes} {p : Placed} :
    p ∈ placed i offset rows ↔ p.stream = i ∧ offset ≤ p.offset ∧ rows[p.offset - offset]? = some p.row := by
  induction rows generalizing offset with
  | nil => simp [placed]
  | cons row rows ih =>
    rw [placed, List.mem_cons, ih]
    constructor
    · rintro (rfl | ⟨hstream, hoffset, hrow⟩)
      · simp
      · refine ⟨hstream, by omega, ?_⟩
        have hsucc : p.offset - offset = (p.offset - (offset + 1)) + 1 := by omega
        rw [hsucc, List.getElem?_cons_succ]
        exact hrow
    · rintro ⟨hstream, hoffset, hrow⟩
      rcases Nat.eq_or_lt_of_le hoffset with heq | hlt
      · left
        rw [← heq, Nat.sub_self, List.getElem?_cons_zero] at hrow
        obtain ⟨stream, off, r⟩ := p
        cases hstream
        cases heq
        cases hrow
        rfl
      · right
        have hsucc : p.offset - offset = (p.offset - (offset + 1)) + 1 := by omega
        rw [hsucc, List.getElem?_cons_succ] at hrow
        exact ⟨hstream, hlt, hrow⟩

theorem placed_take (n : Nat) (rows : List Bytes) : (placed i offset rows).take n = placed i offset (rows.take n) := by
  induction rows generalizing offset n with
  | nil => simp [placed]
  | cons row rows ih =>
    cases n with
    | zero => rfl
    | succ n => rw [placed, List.take_succ_cons, List.take_succ_cons, placed, ih]

theorem placed_nodup (rows : List Bytes) : ((placed i offset rows).map Placed.place).Nodup := by
  induction rows generalizing offset with
  | nil => exact List.nodup_nil
  | cons row rows ih =>
    rw [placed, List.map_cons, List.nodup_cons]
    refine ⟨fun hmem => ?_, ih⟩
    obtain ⟨p, hp, hplace⟩ := List.mem_map.mp hmem
    have hoffset := (mem_placed.mp hp).2.1
    have heq := congrArg Prod.snd hplace
    change p.offset = offset at heq
    omega

theorem takeBatch_append (size : Nat) (rows : List Placed) :
    (takeBatch size rows).1 ++ (takeBatch size rows).2 = rows := by
  induction rows generalizing size with
  | nil => rfl
  | cons r rest ih =>
    unfold takeBatch
    split_ifs
    · exact congrArg (r :: ·) (ih _)
    · rfl

theorem batches_flatten (fuel : Nat) (rows : List Placed) (h : rows.length ≤ fuel) :
    (batches fuel rows).flatten = rows := by
  induction fuel generalizing rows with
  | zero => exact (List.eq_nil_of_length_eq_zero (Nat.le_zero.mp h)).symm
  | succ fuel ih =>
    cases rows with
    | nil => rfl
    | cons r rest =>
      have hsplit := takeBatch_append (r.row.length + 16) rest
      have hlength := congrArg List.length hsplit
      rw [List.length_append] at hlength
      rw [List.length_cons] at h
      unfold batches
      dsimp only
      rw [List.flatten_cons, ih _ (by omega), List.cons_append, hsplit]

theorem insertBatches_flatten (rows : List Placed) : (insertBatches rows).flatten = rows :=
  batches_flatten rows.length rows (le_refl _)

end Placing

structure WriteStream.Shape (st : WriteStream) : Prop where
  counted : st.rows = st.appended.length
  enough : st.held.length ≤ st.rows
  held : st.held = st.appended.drop st.flushed
  direct : st.typ = .committed → st.held = []
  done : st.committed = true → st.held = []

structure WriteStream.Grows (st st' : WriteStream) : Prop where
  name : st'.name = st.name
  typ : st'.typ = st.typ
  isDef : st'.isDef = st.isDef
  appended : st.appended <+: st'.appended
  flushed : st.flushed ≤ st'.flushed
  done : st.committed = true → st'.committed = true ∧ st'.appended = st.appended

theorem WriteStream.Grows.refl (st : WriteStream) : st.Grows st :=
  ⟨rfl, rfl, rfl, List.prefix_rfl, le_refl _, fun h => ⟨h, rfl⟩⟩

def WriteStream.landed (st : WriteStream) : List Bytes := st.appended.take st.flushed

namespace WriteStream

variable {st : WriteStream}

theorem Shape.flushed_le (h : st.Shape) : st.flushed ≤ st.appended.length := by
  rw [← h.counted]
  exact Nat.sub_le _ _

theorem Shape.landed_length (h : st.Shape) : st.landed.length = st.flushed := by
  unfold landed
  rw [List.length_take, Nat.min_eq_left h.flushed_le]

theorem Shape.landed_eq (h : st.Shape) (hnone : st.held = []) : st.landed = st.appended ∧ st.flushed = st.rows := by
  have hflushed : st.flushed = st.rows := by
    unfold flushed
    rw [hnone, List.length_nil, Nat.sub_zero]
  refine ⟨?_, hflushed⟩
  unfold landed
  rw [hflushed, h.counted, List.take_length]

theorem Shape.new (name : StreamName) (typ : StreamType) (isDef : Bool) (created : Int) :
    (WriteStream.new name typ isDef created).Shape := ⟨rfl, le_refl _, rfl, fun _ => rfl, fun _ => rfl⟩

def Lands (st st' : WriteStream) (more : List Bytes) : Prop :=
  st'.Shape ∧ st.Grows st' ∧ st'.landed = st.landed ++ more

theorem Shape.counting (h : st.Shape) (hdirect : st.typ = .committed) (hopen : st.committed = false)
    (rows : List Bytes) : st.Lands (st.counting rows) rows := by
  have hnone := h.direct hdirect
  have hcounted := h.counted
  have hshape : (st.counting rows).Shape := by
    refine ⟨?_, ?_, ?_, fun _ => hnone, fun _ => hnone⟩
    · change st.rows + rows.length = (st.appended ++ rows).length
      rw [List.length_append, hcounted]
    · change st.held.length ≤ st.rows + rows.length
      rw [hnone]
      exact Nat.zero_le _
    · change st.held = (st.appended ++ rows).drop (st.rows + rows.length - st.held.length)
      rw [hnone, List.length_nil, Nat.sub_zero, hcounted, ← List.length_append, List.drop_length]
  refine ⟨hshape, ⟨rfl, rfl, rfl, List.prefix_append _ _, ?_, fun hdone => ?_⟩, ?_⟩
  · change st.rows - st.held.length ≤ st.rows + rows.length - st.held.length
    omega
  · rw [hopen] at hdone
    cases hdone
  · rw [(hshape.landed_eq hnone).1, (h.landed_eq hnone).1]
    rfl

theorem Shape.holding (h : st.Shape) (hholds : st.typ ≠ .committed) (hopen : st.committed = false) (size : Nat)
    (rows : List Bytes) : st.Lands (st.holding size rows) [] := by
  have hcounted := h.counted
  have henough := h.enough
  have hle := h.flushed_le
  have hflushed : (st.holding size rows).flushed = st.flushed := by
    change st.rows + rows.length - (st.held ++ rows).length = st.rows - st.held.length
    rw [List.length_append]
    omega
  refine ⟨⟨?_, ?_, ?_, fun htyp => absurd htyp hholds, fun hdone => ?_⟩,
    ⟨rfl, rfl, rfl, List.prefix_append _ _, le_of_eq hflushed.symm, fun hdone => ?_⟩, ?_⟩
  · change st.rows + rows.length = (st.appended ++ rows).length
    rw [List.length_append, hcounted]
  · change (st.held ++ rows).length ≤ st.rows + rows.length
    rw [List.length_append]
    omega
  · rw [hflushed]
    change st.held ++ rows = (st.appended ++ rows).drop st.flushed
    rw [List.drop_append_of_le_length hle, ← h.held]
  · change st.committed = true at hdone
    rw [hopen] at hdone
    cases hdone
  · rw [hopen] at hdone
    cases hdone
  · unfold landed
    rw [hflushed, List.append_nil]
    exact List.take_append_of_le_length hle

theorem flushed_flushing (h : st.Shape) {n : Nat} (hn : n ≤ st.held.length) :
    (st.flushing n).flushed = st.flushed + n := by
  have henough := h.enough
  change st.rows - (st.held.drop n).length = st.rows - st.held.length + n
  rw [List.length_drop]
  omega

theorem Shape.flushing (h : st.Shape) {n : Nat} (hn : n ≤ st.held.length) :
    st.Lands (st.flushing n) (st.held.take n) := by
  have henough := h.enough
  have hflushed := flushed_flushing h hn
  refine ⟨⟨h.counted, ?_, ?_, fun htyp => ?_, fun hdone => ?_⟩,
    ⟨rfl, rfl, rfl, List.prefix_rfl, ?_, fun hdone => ⟨hdone, rfl⟩⟩, ?_⟩
  · change (st.held.drop n).length ≤ st.rows
    rw [List.length_drop]
    omega
  · rw [hflushed]
    change st.held.drop n = st.appended.drop (st.flushed + n)
    rw [← List.drop_drop, ← h.held]
  · change st.held.drop n = []
    rw [h.direct htyp, List.drop_nil]
  · change st.held.drop n = []
    rw [h.done hdone, List.drop_nil]
  · rw [hflushed]
    exact Nat.le_add_right _ _
  · unfold landed
    rw [hflushed]
    change st.appended.take (st.flushed + n) = _
    rw [List.take_add, ← h.held]

theorem Shape.committing (h : st.Shape) : st.Lands st.committing st.held := by
  have hshape : st.committing.Shape := by
    refine ⟨h.counted, Nat.zero_le _, ?_, fun _ => rfl, fun _ => rfl⟩
    change [] = st.appended.drop (st.rows - 0)
    rw [Nat.sub_zero, h.counted, List.drop_length]
  refine ⟨hshape, ⟨rfl, rfl, rfl, List.prefix_rfl, ?_, fun _ => ⟨rfl, rfl⟩⟩, ?_⟩
  · change st.rows - st.held.length ≤ st.rows - 0
    omega
  · rw [(hshape.landed_eq rfl).1, h.held]
    exact (List.take_append_drop _ _).symm

theorem Shape.finalizing (h : st.Shape) : st.Lands st.finalizing [] :=
  ⟨⟨h.counted, h.enough, h.held, h.direct, h.done⟩,
    ⟨rfl, rfl, rfl, List.prefix_rfl, le_refl _, fun hdone => ⟨hdone, rfl⟩⟩, (List.append_nil _).symm⟩

end WriteStream

def settledFrom : Nat → List WriteStream → List Placed
  | _, [] => []
  | i, st :: rest => placed i 0 st.landed ++ settledFrom (i + 1) rest

def settled (heap : List WriteStream) : List Placed := settledFrom 0 heap

variable {heap : List WriteStream}

theorem mem_settledFrom {k : Nat} {p : Placed} :
    p ∈ settledFrom k heap ↔ k ≤ p.stream ∧ ∃ st, heap[p.stream - k]? = some st ∧ st.landed[p.offset]? = some p.row := by
  induction heap generalizing k with
  | nil => simp [settledFrom]
  | cons st rest ih =>
    rw [settledFrom, List.mem_append, mem_placed, ih]
    constructor
    · rintro (⟨hstream, -, hrow⟩ | ⟨hle, st', hst', hrow⟩)
      · exact ⟨by omega, st, by simp [hstream], by simpa using hrow⟩
      · have hsucc : p.stream - k = (p.stream - (k + 1)) + 1 := by omega
        refine ⟨by omega, st', ?_, hrow⟩
        rw [hsucc, List.getElem?_cons_succ]
        exact hst'
    · rintro ⟨hle, st', hst', hrow⟩
      rcases Nat.eq_or_lt_of_le hle with heq | hlt
      · left
        rw [← heq, Nat.sub_self, List.getElem?_cons_zero] at hst'
        cases hst'
        exact ⟨heq.symm, Nat.zero_le _, by simpa using hrow⟩
      · right
        have hsucc : p.stream - k = (p.stream - (k + 1)) + 1 := by omega
        rw [hsucc, List.getElem?_cons_succ] at hst'
        exact ⟨hlt, st', hst', hrow⟩

theorem mem_settled {p : Placed} :
    p ∈ settled heap ↔ ∃ st, heap[p.stream]? = some st ∧ st.landed[p.offset]? = some p.row := by
  unfold settled
  rw [mem_settledFrom]
  simp

theorem settledFrom_nodup (k : Nat) (heap : List WriteStream) :
    ((settledFrom k heap).map Placed.place).Nodup := by
  induction heap generalizing k with
  | nil => exact List.nodup_nil
  | cons st rest ih =>
    rw [settledFrom, List.map_append, List.nodup_append]
    refine ⟨placed_nodup _, ih (k + 1), fun a ha b hb heq => ?_⟩
    obtain ⟨p, hp, rfl⟩ := List.mem_map.mp ha
    obtain ⟨q, hq, rfl⟩ := List.mem_map.mp hb
    have hstream := (mem_placed.mp hp).1
    have hle := (mem_settledFrom.mp hq).1
    have hsame := congrArg Prod.fst heq
    change p.stream = q.stream at hsame
    omega

theorem settledFrom_append (k : Nat) (heap : List WriteStream) (st : WriteStream) :
    settledFrom k (heap ++ [st]) = settledFrom k heap ++ placed (k + heap.length) 0 st.landed := by
  induction heap generalizing k with
  | nil => simp [settledFrom]
  | cons st' rest ih =>
    have hlength : k + (st' :: rest).length = k + 1 + rest.length := by
      rw [List.length_cons]
      omega
    rw [List.cons_append, settledFrom, settledFrom, ih, List.append_assoc, hlength]

theorem settledFrom_set {k : Nat} {i : Nat} {st st' : WriteStream} {more : List Bytes}
    (hi : heap[i]? = some st) (hmore : st'.landed = st.landed ++ more) :
    (settledFrom k (heap.set i st')).Perm (settledFrom k heap ++ placed (k + i) st.landed.length more) := by
  induction heap generalizing k i with
  | nil => cases hi
  | cons st₀ rest ih =>
    cases i with
    | zero =>
      rw [List.getElem?_cons_zero] at hi
      cases hi
      rw [List.set_cons_zero, settledFrom, settledFrom, hmore, placed_append, Nat.zero_add, Nat.add_zero,
        List.append_assoc, List.append_assoc]
      exact List.Perm.append_left _ List.perm_append_comm
    | succ i =>
      rw [List.getElem?_cons_succ] at hi
      have hindex : k + (i + 1) = k + 1 + i := by omega
      rw [List.set_cons_succ, settledFrom, settledFrom, List.append_assoc, hindex]
      exact List.Perm.append_left _ (ih hi)

def HeapGrows (heap heap' : List WriteStream) : Prop :=
  ∀ (i : Nat) st, heap[i]? = some st → ∃ st', heap'[i]? = some st' ∧ st.Grows st'

theorem HeapGrows.refl (heap : List WriteStream) : HeapGrows heap heap :=
  fun _ st hst => ⟨st, hst, .refl st⟩

theorem HeapGrows.set {i : Nat} {st st' : WriteStream} (hi : heap[i]? = some st)
    (h : st.Grows st') : HeapGrows heap (heap.set i st') := by
  intro j st₀ hj
  by_cases hij : i = j
  · subst hij
    rw [hi] at hj
    cases hj
    exact ⟨st', List.getElem?_set_self (List.getElem?_eq_some_iff.mp hi).1, h⟩
  · exact ⟨st₀, by rw [List.getElem?_set_ne hij, hj], .refl st₀⟩

theorem HeapGrows.push (heap : List WriteStream) (st : WriteStream) : HeapGrows heap (heap ++ [st]) := by
  intro j st₀ hj
  refine ⟨st₀, ?_, .refl st₀⟩
  rw [List.getElem?_append_left (List.getElem?_eq_some_iff.mp hj).1, hj]

def Reply.Good (heap : List WriteStream) : Reply → Prop
  | .appended i start rows => ∃ st, heap[i]? = some st ∧ (∀ (j : Nat) row, rows[j]? = some row →
      st.appended[start + j]? = some row) ∧ (st.typ = .committed → start + rows.length ≤ st.flushed)
  | .flushed i offset => ∃ st, heap[i]? = some st ∧ offset < st.flushed
  | .committed is => ∀ i ∈ is, ∃ st, heap[i]? = some st ∧ st.committed = true
  | .refused _ wrote => wrote = []
  | .created _ | .got _ | .finalized _ _ => True

variable {heap' : List WriteStream}

theorem Reply.Good.grows (hgrows : HeapGrows heap heap') {r : Reply} (h : r.Good heap) : r.Good heap' := by
  cases r with
  | appended i start rows =>
    obtain ⟨st, hst, hrows, hdirect⟩ := h
    obtain ⟨st', hst', hg⟩ := hgrows i st hst
    refine ⟨st', hst', fun j row hrow => ?_, fun htyp => ?_⟩
    · have hold := hrows j row hrow
      obtain ⟨more, hmore⟩ := hg.appended
      rw [← hmore, List.getElem?_append_left (List.getElem?_eq_some_iff.mp hold).1]
      exact hold
    · exact le_trans (hdirect (hg.typ ▸ htyp)) hg.flushed
  | flushed i offset =>
    obtain ⟨st, hst, hoffset⟩ := h
    obtain ⟨st', hst', hg⟩ := hgrows i st hst
    exact ⟨st', hst', lt_of_lt_of_le hoffset hg.flushed⟩
  | committed is =>
    intro i hi
    obtain ⟨st, hst, hdone⟩ := h i hi
    obtain ⟨st', hst', hg⟩ := hgrows i st hst
    exact ⟨st', hst', (hg.done hdone).1⟩
  | created i | got i | finalized i n => trivial
  | refused r wrote => exact h

def Job.placed (heap : List WriteStream) : Job → List Placed
  | .append i rows => StorageWrite.placed i ((heap[i]?.map WriteStream.rows).getD 0) rows
  | .flush i n _ => (Front.heldRows heap i).take n
  | .commit is => is.flatMap (Front.heldRows heap)

def Job.Ready (heap : List WriteStream) : Job → Prop
  | .append i _ => ∃ st, heap[i]? = some st ∧ st.typ = .committed ∧ st.committed = false
  | .flush i n offset => ∃ st, heap[i]? = some st ∧ st.flushed ≤ offset ∧ offset < st.rows ∧
      n = offset - st.flushed + 1
  | .commit is => ∀ i ∈ is, ∃ st, heap[i]? = some st

namespace Thread

def owned : Thread → List Nat
  | .opening i _ | .writing i _ | .accepting i _ _ => [i]
  | .locking _ _ locked _ => locked
  | .inserting job _ _ => job.streams
  | .committing is _ | .dropping is _ _ => is
  | _ => []

def extra (heap : List WriteStream) : Thread → List Placed
  | .inserting _ _ wrote => wrote
  | .committing _ todo | .dropping _ _ todo => todo.flatMap (Front.heldRows heap)
  | _ => []

def Named (heap : List WriteStream) (names : List StreamName) (is : List Nat) : Prop :=
  ∀ i ∈ is, ∃ st, heap[i]? = some st ∧ st.name ∈ names

def Committing (heap : List WriteStream) (is todo : List Nat) : Prop :=
  todo.Nodup ∧ (∀ i ∈ todo, i ∈ is) ∧ ∀ i ∈ is, ∃ st, heap[i]? = some st ∧ (i ∉ todo → st.committed = true)

def Local (heap : List WriteStream) : Thread → Prop
  | .call (.commit _ names) => names.Nodup
  | .creating st => st.Shape ∧ st.appended = []
  | .answering r => r.Good heap
  | .forgetting _ next => next.owned = [] ∧ next.extra heap = [] ∧ next.Local heap
  | .opening i _ | .writing i _ | .accepting i _ _ =>
    ∃ st, heap[i]? = some st ∧ st.typ ≠ .committed ∧ st.committed = false
  | .looking _ names todo _ is _ => names.Nodup ∧ (∀ n ∈ todo, n ∈ names) ∧ Named heap names is
  | .locking names todo locked _ => names.Nodup ∧ Named heap names (locked ++ todo)
  | .inserting job left wrote => (wrote ++ left.flatten).Perm (job.placed heap) ∧ job.Ready heap
  | .committing is todo => Committing heap is todo
  | .dropping is i todo => i ∈ is ∧ Committing heap is todo
  | _ => True

end Thread

theorem heldRows_congr {is : List Nat}
    (h : ∀ i ∈ is, heap'[i]? = heap[i]?) : is.flatMap (Front.heldRows heap') = is.flatMap (Front.heldRows heap) := by
  apply List.flatMap_congr
  intro i hi
  unfold Front.heldRows
  rw [h i hi]

theorem Job.placed_congr {job : Job}
    (h : ∀ i ∈ job.streams, heap'[i]? = heap[i]?) : job.placed heap' = job.placed heap := by
  cases job with
  | append i rows =>
    have hi := h i List.mem_cons_self
    simp only [Job.placed, hi]
  | flush i n offset =>
    have hi := h i List.mem_cons_self
    simp only [Job.placed, Front.heldRows, hi]
  | commit is => exact heldRows_congr h

theorem Job.Ready.congr {job : Job}
    (h : ∀ i ∈ job.streams, heap'[i]? = heap[i]?) (hready : job.Ready heap) : job.Ready heap' := by
  cases job with
  | append i rows | flush i n offset =>
    have hi := h i List.mem_cons_self
    simp only [Job.Ready, hi]
    exact hready
  | commit is =>
    intro i hi
    rw [h i hi]
    exact hready i hi

theorem Thread.Named.grows (hgrows : HeapGrows heap heap')
    {names : List StreamName} {is : List Nat} (h : Thread.Named heap names is) : Thread.Named heap' names is := by
  intro i hi
  obtain ⟨st, hst, hname⟩ := h i hi
  obtain ⟨st', hst', hg⟩ := hgrows i st hst
  exact ⟨st', hst', hg.name ▸ hname⟩

namespace Thread

variable {heap heap' : List WriteStream} {t : Thread}

theorem extra_congr (h : t.Local heap) (hkeep : ∀ i ∈ t.owned, heap'[i]? = heap[i]?) :
    t.extra heap' = t.extra heap := by
  cases t with
  | committing is todo => exact heldRows_congr fun i hi => hkeep i (h.2.1 i hi)
  | dropping is i todo => exact heldRows_congr fun i hi => hkeep i (h.2.2.1 i hi)
  | _ => rfl

theorem Committing.congr {is todo : List Nat} (hkeep : ∀ i ∈ is, heap'[i]? = heap[i]?)
    (h : Committing heap is todo) : Committing heap' is todo := by
  refine ⟨h.1, h.2.1, fun i hi => ?_⟩
  rw [hkeep i hi]
  exact h.2.2 i hi

theorem Local.there (h : t.Local heap) : ∀ i ∈ t.owned, ∃ st, heap[i]? = some st := by
  intro i hi
  cases t with
  | opening j rows | writing j rows | accepting j rows size =>
    obtain ⟨st, hst, -⟩ := h
    exact ⟨st, List.mem_singleton.mp hi ▸ hst⟩
  | locking names todo locked errs =>
    obtain ⟨st, hst, -⟩ := h.2 i (List.mem_append_left _ hi)
    exact ⟨st, hst⟩
  | inserting job left wrote =>
    cases job with
    | append j rows | flush j n offset =>
      obtain ⟨st, hst, -⟩ := h.2
      exact ⟨st, List.mem_singleton.mp hi ▸ hst⟩
    | commit is => exact h.2 i hi
  | committing is todo =>
    obtain ⟨st, hst, -⟩ := h.2.2 i hi
    exact ⟨st, hst⟩
  | dropping is j todo =>
    obtain ⟨st, hst, -⟩ := h.2.2.2 i hi
    exact ⟨st, hst⟩
  | _ => cases hi

theorem Local.grows (hgrows : HeapGrows heap heap') (hkeep : ∀ i ∈ t.owned, heap'[i]? = heap[i]?)
    (h : t.Local heap) : t.Local heap' := by
  induction t with
  | call c => cases c <;> exact h
  | creating st => exact h
  | remembering i | makeDefault c name | rememberDefault c i | found c i => trivial
  | forgetting files next ih =>
    obtain ⟨howned, hextra, hnext⟩ := h
    have hnone : ∀ i ∈ next.owned, heap'[i]? = heap[i]? := by
      intro i hi
      rw [howned] at hi
      cases hi
    refine ⟨howned, ?_, ih hnone hnext⟩
    rw [extra_congr hnext hnone]
    exact hextra
  | answering r => exact Reply.Good.grows hgrows h
  | opening i rows | writing i rows | accepting i rows size =>
    have hi := hkeep i List.mem_cons_self
    simp only [Local, hi]
    exact h
  | looking parent names todo seen is errs => exact ⟨h.1, h.2.1, h.2.2.grows hgrows⟩
  | locking names todo locked errs => exact ⟨h.1, h.2.grows hgrows⟩
  | inserting job left wrote =>
    refine ⟨?_, h.2.congr hkeep⟩
    rw [Job.placed_congr hkeep]
    exact h.1
  | committing is todo => exact Committing.congr hkeep h
  | dropping is i todo => exact ⟨h.1, Committing.congr hkeep h.2⟩

end Thread

structure Inv (s : Sys Front Thread) : Prop where
  shape : ∀ (i : Nat) st, s.shared.heap[i]? = some st → st.Shape
  named : ∀ n i, s.shared.streams n = some i → ∃ st, s.shared.heap[i]? = some st ∧ st.name = n
  leased : Leased s.shared.locks (s.threads.flatMap Thread.owned)
  calls : ∀ t ∈ s.threads, t.Local s.shared.heap
  account : s.shared.table.Perm (settled s.shared.heap ++ s.threads.flatMap (Thread.extra s.shared.heap))
  replies : ∀ r ∈ s.shared.replies, r.Good s.shared.heap

structure Kept (f : Front) (t : Thread) (ts : List Thread) (f' : Front) : Prop where
  shape : ∀ (i : Nat) st, f'.heap[i]? = some st → st.Shape
  named : ∀ n i, f'.streams n = some i → ∃ st, f'.heap[i]? = some st ∧ st.name = n
  grows : HeapGrows f.heap f'.heap
  others : ∀ i ∈ f.locks, i ∉ t.owned → ∀ st, f.heap[i]? = some st → f'.heap[i]? = some st
  leased : ∀ left right : List Nat, Leased f.locks (left ++ t.owned ++ right) →
    Leased f'.locks (left ++ ts.flatMap Thread.owned ++ right)
  calls : ∀ t' ∈ ts, t'.Local f'.heap
  account : ∃ b, f'.table = f.table ++ b ∧
    (settled f'.heap ++ ts.flatMap (Thread.extra f'.heap)).Perm (settled f.heap ++ t.extra f.heap ++ b)
  replies : ∀ r ∈ f'.replies, r ∈ f.replies ∨ r.Good f'.heap

theorem Inv.step {f f' : Front} {left right ts : List Thread} {t : Thread}
    (h : Inv ⟨f, left ++ t :: right⟩) (hk : Kept f t ts f') : Inv ⟨f', left ++ ts ++ right⟩ := by
  have hleased : Leased f.locks (left.flatMap Thread.owned ++ t.owned ++ right.flatMap Thread.owned) := by
    have hall := h.leased
    dsimp only at hall
    rw [List.flatMap_append, List.flatMap_cons, ← List.append_assoc] at hall
    exact hall
  have hmem : ∀ t' ∈ left ++ right, t' ∈ left ++ t :: right := by
    intro t' ht'
    rw [List.mem_append, List.mem_cons]
    rw [List.mem_append] at ht'
    tauto
  -- another call's locks are not this one's
  have hother : ∀ t' ∈ left ++ right, ∀ i ∈ t'.owned, f'.heap[i]? = f.heap[i]? := by
    intro t' ht' i hi
    have hin : i ∈ left.flatMap Thread.owned ++ right.flatMap Thread.owned := by
      rw [← List.flatMap_append]
      exact List.mem_flatMap.mpr ⟨t', ht', hi⟩
    obtain ⟨st, hst⟩ := (h.calls t' (hmem t' ht')).there i hi
    rw [hst]
    refine hk.others i ((hleased.marked i).mpr ?_) (fun hown => ?_) st hst
    · rw [List.mem_append, List.mem_append]
      rw [List.mem_append] at hin
      tauto
    · have honce := hleased.once
      rw [List.nodup_append, List.nodup_append] at honce
      rcases List.mem_append.mp hin with hl | hr
      · exact honce.1.2.2 i hl i hown rfl
      · exact honce.2.2 i (List.mem_append_right _ hown) i hr rfl
  have hextra : ∀ ls : List Thread, (∀ t' ∈ ls, t' ∈ left ++ right) →
      ls.flatMap (Thread.extra f'.heap) = ls.flatMap (Thread.extra f.heap) := by
    intro ls hls
    apply List.flatMap_congr
    intro t' ht'
    exact Thread.extra_congr (h.calls t' (hmem t' (hls t' ht'))) (hother t' (hls t' ht'))
  refine ⟨hk.shape, hk.named, ?_, fun t' ht' => ?_, ?_, fun r hr => ?_⟩
  · dsimp only
    rw [List.flatMap_append, List.flatMap_append]
    exact hk.leased _ _ hleased
  · rcases Program.mem_replaced ht' with hnew | hold
    · exact hk.calls t' hnew
    · exact (h.calls t' (hmem t' hold)).grows hk.grows (hother t' hold)
  · obtain ⟨b, htable, hperm⟩ := hk.account
    have hbefore := h.account
    dsimp only at hbefore ⊢
    rw [List.flatMap_append, List.flatMap_cons] at hbefore
    rw [htable, List.flatMap_append, List.flatMap_append, hextra left fun t' ht' => List.mem_append_left _ ht',
      hextra right fun t' ht' => List.mem_append_right _ ht']
    rw [List.perm_iff_count] at hbefore hperm ⊢
    intro p
    have h₁ := hbefore p
    have h₂ := hperm p
    simp only [List.count_append] at h₁ h₂ ⊢
    omega
  · rcases hk.replies r hr with hold | hnew
    · exact (h.replies r hold).grows hk.grows
    · exact hnew

end CloudBurrow.StorageWrite
