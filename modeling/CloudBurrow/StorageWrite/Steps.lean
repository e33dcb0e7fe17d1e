import CloudBurrow.StorageWrite.Accounts

namespace CloudBurrow.StorageWrite

open Utf8 Threads

section Kinds

variable {f f' : Front} {t : Thread} {ts : List Thread}

structure Front.Sound (f : Front) : Prop where
  shape : ∀ (i : Nat) st, f.heap[i]? = some st → st.Shape
  named : ∀ n i, f.streams n = some i → ∃ st, f.heap[i]? = some st ∧ st.name = n

structure Front.Same (f f' : Front) : Prop where
  heap : f'.heap = f.heap
  locks : f'.locks = f.locks
  table : f'.table = f.table
  streams : ∀ n i, f'.streams n = some i → ∃ st, f.heap[i]? = some st ∧ st.name = n

theorem Front.Sound.same (hf : f.Sound) : f.Same f := ⟨rfl, rfl, rfl, hf.named⟩

theorem Kept.frame (hf : f.Sound) (hheap : f'.heap = f.heap) (htable : f'.table = f.table)
    (hstreams : ∀ n i, f'.streams n = some i → ∃ st, f.heap[i]? = some st ∧ st.name = n)
    (hleased : ∀ left right : List Nat, Leased f.locks (left ++ t.owned ++ right) →
      Leased f'.locks (left ++ ts.flatMap Thread.owned ++ right))
    (hextra : (ts.flatMap (Thread.extra f.heap)).Perm (t.extra f.heap)) (hcalls : ∀ t' ∈ ts, t'.Local f.heap)
    (hreplies : ∀ r ∈ f'.replies, r ∈ f.replies ∨ r.Good f.heap) : Kept f t ts f' := by
  refine ⟨?_, ?_, ?_, ?_, hleased, ?_, ⟨[], by rw [htable, List.append_nil], ?_⟩, ?_⟩ <;> rw [hheap]
  · exact hf.shape
  · exact hstreams
  · exact HeapGrows.refl _
  · exact fun _ _ _ _ hst => hst
  · exact hcalls
  · rw [List.append_nil]
    exact hextra.append_left _
  · exact hreplies

theorem Kept.quiet (hf : f.Sound) (hsame : f.Same f') (howned : ts.flatMap Thread.owned = t.owned)
    (hextra : (ts.flatMap (Thread.extra f.heap)).Perm (t.extra f.heap)) (hcalls : ∀ t' ∈ ts, t'.Local f.heap)
    (hreplies : ∀ r ∈ f'.replies, r ∈ f.replies ∨ r.Good f.heap) : Kept f t ts f' := by
  refine Kept.frame hf hsame.heap hsame.table hsame.streams (fun left right h => ?_) hextra hcalls hreplies
  rw [hsame.locks, howned]
  exact h

theorem Reply.mem_snoc {heap : List WriteStream} {r r' : Reply} {replies : List Reply} (h : r' ∈ replies ++ [r])
    (hr : r.Good heap) : r' ∈ replies ∨ r'.Good heap := by
  rcases List.mem_append.mp h with hold | hnew
  · exact .inl hold
  · exact .inr (List.mem_singleton.mp hnew ▸ hr)

variable {t' : Thread}

theorem Kept.goes (hf : f.Sound) (hsame : f.Same f') (howned : t'.owned = t.owned)
    (hextra : t'.extra f.heap = t.extra f.heap) (hcall : t'.Local f.heap)
    (hreplies : f'.replies = f.replies) : Kept f t [t'] f' := by
  refine Kept.quiet hf hsame ?_ ?_ (fun t'' ht'' => ?_) fun r hr => Or.inl (hreplies ▸ hr)
  · rw [List.flatMap_singleton]
    exact howned
  · rw [List.flatMap_singleton, hextra]
  · rw [List.mem_singleton.mp ht'']
    exact hcall

theorem Kept.answers (hf : f.Sound) (howned : t.owned = []) (hextra : t.extra f.heap = []) {r : Reply}
    (hr : r.Good f.heap) : Kept f t (f.reply r).1 (f.reply r).2 := by
  exact Kept.quiet hf ⟨rfl, rfl, rfl, hf.named⟩ howned.symm (hextra ▸ List.Perm.nil)
    (fun t' ht' => absurd ht' List.not_mem_nil) fun r' hr' => Reply.mem_snoc hr' hr

theorem Kept.refuses (hf : f.Sound) (howned : t.owned = []) (hextra : t.extra f.heap = []) (r : Refusal) :
    Kept f t (f.refuse r).1 (f.refuse r).2 := Kept.answers hf howned hextra rfl

theorem Kept.releases {g : Front} (hf : f.Sound) (hsame : f.Same g) (hreplies : g.replies = f.replies) {is : List Nat}
    (howned : t.owned = is) (hextra : t.extra f.heap = []) {r : Reply} (hr : r.Good f.heap) :
    Kept f t ((g.unlock is).reply r).1 ((g.unlock is).reply r).2 := by
  refine Kept.frame hf hsame.heap hsame.table hsame.streams (fun left right h => ?_) (hextra ▸ List.Perm.nil)
    (fun t' ht' => absurd ht' List.not_mem_nil) fun r' hr' => hreplies ▸ Reply.mem_snoc hr' hr
  change Leased (g.locks \ is.toFinset) (left ++ [] ++ right)
  rw [hsame.locks, ← howned]
  exact h.release

theorem Kept.locks {i : Nat} (hf : f.Sound) (hfree : i ∉ f.locks) (howned : t'.owned = t.owned ++ [i])
    (hextra : t'.extra f.heap = t.extra f.heap) (hcall : t'.Local f.heap) : Kept f t [t'] (f.lock i) := by
  refine Kept.frame hf rfl rfl hf.named (fun left right h => ?_) ?_ (fun t'' ht'' => ?_) fun r hr => Or.inl hr
  · rw [List.flatMap_singleton, howned]
    exact h.acquire hfree
  · rw [List.flatMap_singleton, hextra]
  · rw [List.mem_singleton.mp ht'']
    exact hcall

theorem Kept.pushes {st : WriteStream} (hf : f.Sound) (hshape : st.Shape) (hnone : st.appended = [])
    (hheap : f'.heap = f.heap ++ [st]) (hlocks : f'.locks = f.locks) (htable : f'.table = f.table)
    (hstreams : f'.streams = f.streams) (hreplies : f'.replies = f.replies) (hown : t.owned = [])
    (howned : t'.owned = []) (hextra : ∀ heap, t'.extra heap = []) (hextra' : t.extra f.heap = [])
    (hcall : t'.Local f'.heap) : Kept f t [t'] f' := by
  have hgrows := HeapGrows.push f.heap st
  rw [← hheap] at hgrows
  refine ⟨fun i st' hst' => ?_, fun n i hi => ?_, hgrows, fun i _ _ st' hst' => ?_, fun left right h => ?_,
    fun t'' ht'' => ?_, ⟨[], by rw [htable, List.append_nil], ?_⟩, fun r hr => Or.inl (hreplies ▸ hr)⟩
  · rw [hheap] at hst'
    rcases Nat.lt_or_ge i f.heap.length with hlt | hge
    · rw [List.getElem?_append_left hlt] at hst'
      exact hf.shape i st' hst'
    · rw [List.getElem?_append_right hge] at hst'
      obtain ⟨-, rfl⟩ := List.getElem?_eq_some_iff.mp hst'
      rw [List.getElem_singleton]
      exact hshape
  · rw [hstreams] at hi
    obtain ⟨st₀, hst₀, hname⟩ := hf.named n i hi
    obtain ⟨st', hst', hg⟩ := hgrows i st₀ hst₀
    exact ⟨st', hst', hg.name.trans hname⟩
  · rw [hheap, List.getElem?_append_left (List.getElem?_eq_some_iff.mp hst').1]
    exact hst'
  · rw [List.flatMap_singleton, howned, hlocks]
    rw [hown] at h
    exact h
  · rw [List.mem_singleton.mp ht'']
    exact hcall
  · have hlanded : st.landed = [] := by
      unfold WriteStream.landed
      rw [hnone, List.take_nil]
    rw [List.flatMap_singleton, hextra, hextra', hheap]
    unfold settled
    rw [settledFrom_append, hlanded]
    simp [placed]

theorem Kept.sets {i : Nat} {st st' : WriteStream} {more : List Bytes} (hf : f.Sound) (hi : f.heap[i]? = some st)
    (hnew : st.Lands st' more) (hmine : i ∈ f.locks → i ∈ t.owned)
    (hheap : f'.heap = f.heap.set i st') (htable : f'.table = f.table) (hstreams : f'.streams = f.streams)
    (hleased : ∀ left right : List Nat, Leased f.locks (left ++ t.owned ++ right) →
      Leased f'.locks (left ++ ts.flatMap Thread.owned ++ right))
    (hcalls : ∀ t' ∈ ts, t'.Local f'.heap)
    (hextra : (placed i st.flushed more ++ ts.flatMap (Thread.extra f'.heap)).Perm (t.extra f.heap))
    (hreplies : ∀ r ∈ f'.replies, r ∈ f.replies ∨ r.Good f'.heap) : Kept f t ts f' := by
  obtain ⟨hshape, hgrows, hlanded⟩ := hnew
  have hheapGrows := HeapGrows.set hi hgrows
  rw [← hheap] at hheapGrows
  refine ⟨fun j st₀ hj => ?_, fun n j hj => ?_, hheapGrows, fun j hj hnot st₀ hst₀ => ?_, hleased, hcalls,
    ⟨[], by rw [htable, List.append_nil], ?_⟩, hreplies⟩
  · rw [hheap] at hj
    by_cases hij : i = j
    · subst hij
      rw [List.getElem?_set_self (List.getElem?_eq_some_iff.mp hi).1] at hj
      cases hj
      exact hshape
    · rw [List.getElem?_set_ne hij] at hj
      exact hf.shape j st₀ hj
  · rw [hstreams] at hj
    obtain ⟨st₀, hst₀, hname⟩ := hf.named n j hj
    obtain ⟨st₁, hst₁, hg⟩ := hheapGrows j st₀ hst₀
    exact ⟨st₁, hst₁, hg.name.trans hname⟩
  · have hij : i ≠ j := by
      rintro rfl
      exact hnot (hmine hj)
    rw [hheap, List.getElem?_set_ne hij]
    exact hst₀
  · have hsettled : (settled f'.heap).Perm (settled f.heap ++ placed i st.flushed more) := by
      have hset := settledFrom_set (k := 0) hi hlanded
      rw [(hf.shape i st hi).landed_length, Nat.zero_add, ← hheap] at hset
      exact hset
    calc (settled f'.heap ++ ts.flatMap (Thread.extra f'.heap)).Perm
          (settled f.heap ++ placed i st.flushed more ++ ts.flatMap (Thread.extra f'.heap)) :=
          hsettled.append_right _
      _ = settled f.heap ++ (placed i st.flushed more ++ ts.flatMap (Thread.extra f'.heap)) :=
          List.append_assoc _ _ _
      List.Perm _ (settled f.heap ++ t.extra f.heap) := List.Perm.append_left _ hextra
      _ = settled f.heap ++ t.extra f.heap ++ [] := (List.append_nil _).symm

end Kinds

structure Front.Filed (f f' : Front) : Prop where
  heap : f'.heap = f.heap
  streams : f'.streams = f.streams
  locks : f'.locks = f.locks
  table : f'.table = f.table
  replies : f'.replies = f.replies

theorem Front.filed_saveStream (f : Front) (st : WriteStream) : f.Filed (f.saveStream st) := by
  unfold Front.saveStream
  split_ifs <;> exact ⟨rfl, rfl, rfl, rfl, rfl⟩

theorem Front.filed_saveIf (f : Front) (ok : Bool) (st : WriteStream) : f.Filed (f.saveIf ok st) := by
  unfold Front.saveIf
  split_ifs
  · exact f.filed_saveStream st
  · exact ⟨rfl, rfl, rfl, rfl, rfl⟩

theorem Front.filed_removeFile (f : Front) (file : Bytes × Bool) : f.Filed (f.removeFile file) := by
  unfold Front.removeFile
  split_ifs <;> exact ⟨rfl, rfl, rfl, rfl, rfl⟩

theorem Front.Filed.same {f f' : Front} (hf : f.Sound) (h : f.Filed f') : f.Same f' :=
  ⟨h.heap, h.locks, h.table, fun n i hi => hf.named n i (h.streams ▸ hi)⟩

def Keeps (f : Front) (t : Thread) (after : List Thread × Front) : Prop := Kept f t after.1 after.2

section Calls

variable {f : Front}

theorem lookup_kept (hf : f.Sound) (ok : Bool) (c : Call) (name : StreamName) :
    Keeps f (.call c) (f.lookup ok c name) := by
  unfold Front.lookup
  cases f.streams name with
  | some i => exact Kept.goes hf hf.same rfl rfl trivial rfl
  | none =>
    dsimp only
    split_ifs
    · exact Kept.goes hf hf.same rfl rfl trivial rfl
    · exact Kept.refuses hf rfl rfl .notFound

variable {c : Call}

theorem call_kept (hf : f.Sound) (input : Input) (h : (Thread.call c).Local f.heap) :
    Keeps f (.call c) (f.advanceCall input c) := by
  cases c with
  | create table typ =>
    unfold Front.advanceCall
    dsimp only
    split_ifs
    · exact Kept.goes hf hf.same rfl rfl trivial rfl
    · exact Kept.goes hf ⟨rfl, rfl, rfl, hf.named⟩ rfl rfl ⟨.new _ typ false input.now, rfl⟩ rfl
    · exact Kept.refuses hf rfl rfl .notFound
  | get name | append name offset rows | flush name offset | finalize name =>
    exact lookup_kept hf input.ok _ name
  | commit parent names =>
    unfold Front.advanceCall
    dsimp only
    split_ifs
    · exact Kept.refuses hf rfl rfl .streamsRequired
    · exact Kept.goes hf hf.same rfl rfl ⟨h, fun n hn => hn, fun i hi => absurd hi List.not_mem_nil⟩ rfl

variable {st : WriteStream}

theorem creating_kept (hf : f.Sound) (input : Input) (h : (Thread.creating st).Local f.heap) :
    Keeps f (.creating st) (f.advance input (.creating st)) := by
  have hfiled := f.filed_saveStream st
  unfold Front.advance
  dsimp only
  split_ifs
  · exact Kept.pushes hf h.1 h.2 rfl hfiled.locks hfiled.table hfiled.streams hfiled.replies rfl rfl
      (fun _ => rfl) rfl trivial
  · exact Kept.refuses hf rfl rfl .keeping

variable {i : Nat}

theorem remember_same (hf : f.Sound) (hi : f.heap[i]? = some st) :
    f.Same (f.remember i st.name).1 ∧ (f.remember i st.name).1.replies = f.replies := by
  have hnamed : ∀ n j, Function.update f.streams st.name (some i) n = some j →
      ∃ st', f.heap[j]? = some st' ∧ st'.name = n := by
    intro n j hj
    by_cases hn : n = st.name
    · subst hn
      rw [Function.update_self] at hj
      cases hj
      exact ⟨st, hi, rfl⟩
    · rw [Function.update_of_ne hn] at hj
      exact hf.named n j hj
  unfold Front.remember
  dsimp only
  split_ifs
  all_goals try exact ⟨⟨rfl, rfl, rfl, hnamed⟩, rfl⟩
  all_goals
    refine ⟨⟨rfl, rfl, rfl, fun n j hj => ?_⟩, rfl⟩
    dsimp only at hj
    split_ifs at hj
    exact hnamed n j hj

variable {t : Thread}

theorem remembered_kept (hf : f.Sound) {next : Thread} (hi : f.heap[i]? = some st)
    (howned : t.owned = []) (hextra : t.extra f.heap = []) (hown : next.owned = []) (hnone : next.extra f.heap = [])
    (hnext : next.Local f.heap) :
    Keeps f t (f.remembered i st.name next) := by
  obtain ⟨hsame, hreplies⟩ := remember_same hf hi
  unfold Front.remembered
  dsimp only
  split_ifs
  · exact Kept.goes hf hsame howned.symm hextra.symm ⟨hown, hnone, hnext⟩ hreplies
  · exact Kept.goes hf hsame (hown.trans howned.symm) (hnone.trans hextra.symm) hnext hreplies

theorem found_append_kept (hf : f.Sound) (hi : f.heap[i]? = some st) (offset : Option Int) (rows : List Row) :
    Keeps f (.found c i) (f.append i st offset rows (.found c i)) := by
  unfold Front.append
  split_ifs with hlocked
  · exact Kept.goes hf hf.same rfl rfl trivial rfl
  · cases hrefusal : st.appendRefusal offset with
    | some r => exact Kept.refuses hf rfl rfl r
    | none =>
      have hopen : st.committed = false := by
        cases hdone : st.committed with
        | false => rfl
        | true => simp [WriteStream.appendRefusal, hdone] at hrefusal
      dsimp only
      cases htyp : st.typ with
      | committed =>
        refine Kept.locks hf hlocked rfl rfl ⟨?_, st, hi, htyp, hopen⟩
        rw [List.nil_append, insertBatches_flatten]
        simp only [Job.placed, hi, Option.map_some, Option.getD_some]
        exact List.Perm.refl _
      | pending | buffered => exact Kept.locks hf hlocked rfl rfl ⟨st, hi, by rw [htyp]; decide, hopen⟩

theorem found_flush_kept (hf : f.Sound) (hi : f.heap[i]? = some st) (offset : Option Int) :
    Keeps f (.found c i) (f.flush i st offset (.found c i)) := by
  unfold Front.flush
  by_cases hwrong : st.typ ≠ .buffered ∨ st.isDef
  · rw [if_pos hwrong]
    exact Kept.refuses hf rfl rfl .notBuffered
  · rw [if_neg hwrong]
    cases offset with
    | none => exact Kept.refuses hf rfl rfl .offsetRequired
    | some off =>
      dsimp only
      split_ifs with hlocked hrange hflushed
      · exact Kept.goes hf hf.same rfl rfl trivial rfl
      · exact Kept.refuses hf rfl rfl .outOfRange
      · rw [not_or] at hrange
        refine Kept.locks hf hlocked rfl rfl ⟨?_, st, hi, hflushed, by omega, rfl⟩
        rw [List.nil_append, insertBatches_flatten]
        simp only [Job.placed, Front.heldRows, hi, placed_take]
        exact List.Perm.refl _
      · exact Kept.answers hf rfl rfl ⟨st, hi, by omega⟩

theorem found_finalize_kept (hf : f.Sound) (ok : Bool) (hi : f.heap[i]? = some st) :
    Keeps f (.found c i) (f.finalize ok i st (.found c i)) := by
  have hfiled := f.filed_saveStream st.finalizing
  unfold Front.finalize
  dsimp only
  split_ifs with hdef hlocked
  · exact Kept.refuses hf rfl rfl .defaultStream
  · exact Kept.goes hf hf.same rfl rfl trivial rfl
  · refine Kept.sets hf hi (hf.shape i st hi).finalizing (fun h => absurd h hlocked) ?_ hfiled.table hfiled.streams
      (fun left right h => ?_) (fun t' ht' => ?_) (List.Perm.refl _) fun r hr => ?_
    · change (f.saveStream st.finalizing).heap.set i st.finalizing = _
      rw [hfiled.heap]
    · change Leased (f.saveStream st.finalizing).locks _
      rw [hfiled.locks]
      exact h
    · cases ht'
    · change r ∈ (f.saveStream st.finalizing).replies ++ [_] at hr
      rw [hfiled.replies] at hr
      exact Reply.mem_snoc hr trivial
  · exact Kept.refuses hf rfl rfl .keeping

variable {rows : List Row}

theorem open_kept (hf : f.Sound) (ok : Bool) (h : (Thread.opening i rows).Local f.heap) :
    Keeps f (.opening i rows) (f.openHeld ok i rows) := by
  obtain ⟨st, hi, hholds, hopen⟩ := h
  unfold Front.openHeld
  rw [hi]
  dsimp only
  split_ifs
  · exact Kept.goes hf hf.same rfl rfl ⟨st, hi, hholds, hopen⟩ rfl
  · exact Kept.goes hf ⟨rfl, rfl, rfl, hf.named⟩ rfl rfl ⟨st, hi, hholds, hopen⟩ rfl
  · exact Kept.releases hf hf.same rfl rfl rfl rfl

theorem write_kept (hf : f.Sound) (input : Input) (h : (Thread.writing i rows).Local f.heap) :
    Keeps f (.writing i rows) (f.writeHeld input i rows) := by
  obtain ⟨st, hi, hholds, hopen⟩ := h
  unfold Front.writeHeld
  rw [hi]
  dsimp only
  split_ifs
  · exact Kept.goes hf ⟨rfl, rfl, rfl, hf.named⟩ rfl rfl ⟨st, hi, hholds, hopen⟩ rfl
  · exact Kept.releases (g := f.setFile _ _) hf ⟨rfl, rfl, rfl, hf.named⟩ rfl rfl rfl rfl

theorem Kept.finishes {g : Front} {st' : WriteStream} {more : List Bytes} (hf : f.Sound)
    (hi : f.heap[i]? = some st) (hnew : st.Lands st' more) (hfiled : (f.setStream i st').Filed g)
    (howned : t.owned = [i]) (hextra : (placed i st.flushed more).Perm (t.extra f.heap)) {r : Reply}
    (hr : r.Good (f.heap.set i st')) :
    Keeps f t ((g.unlock [i]).reply r) := by
  refine Kept.sets hf hi hnew (fun _ => howned ▸ List.mem_cons_self) hfiled.heap hfiled.table hfiled.streams
    (fun left right h => ?_) (fun t' ht' => ?_) ?_ fun r' hr' => ?_
  · change Leased (g.locks \ [i].toFinset) (left ++ [] ++ right)
    rw [hfiled.locks, ← howned]
    exact h.release
  · cases ht'
  · change (placed i st.flushed more ++ []).Perm _
    rw [List.append_nil]
    exact hextra
  · change r' ∈ g.replies ++ [r] at hr'
    change _ ∨ r'.Good g.heap
    rw [hfiled.replies] at hr'
    exact hfiled.heap ▸ Reply.mem_snoc hr' hr

theorem accept_kept (hf : f.Sound) (ok : Bool) {size : Nat} (h : (Thread.accepting i rows size).Local f.heap) :
    Keeps f (.accepting i rows size) (f.accept ok i rows size) := by
  obtain ⟨st, hi, hholds, hopen⟩ := h
  have hshape := hf.shape i st hi
  unfold Front.accept
  rw [hi]
  dsimp only
  generalize (if f.keeps then size else st.size) = size'
  split_ifs
  · refine Kept.finishes hf hi (hshape.holding hholds hopen _ _) (Front.filed_saveStream _ _) rfl (List.Perm.refl _)
      ⟨_, List.getElem?_set_self (List.getElem?_eq_some_iff.mp hi).1, fun j row hrow => ?_, fun htyp => ?_⟩
    · change (st.appended ++ rows.map Row.json)[st.rows + j]? = some row
      rw [hshape.counted, List.getElem?_append_right (Nat.le_add_right _ _), Nat.add_sub_cancel_left]
      exact hrow
    · exact absurd htyp hholds
  · exact Kept.releases hf hf.same rfl rfl rfl rfl

theorem look_named (hf : f.Sound) {parent : ReadTable} {n : StreamName} (h : f.look parent n = .inr i) :
    ∃ st, f.heap[i]? = some st ∧ st.name = n := by
  unfold Front.look at h
  cases hstream : f.streams n with
  | none =>
    rw [hstream] at h
    cases h
  | some j =>
    obtain ⟨st, hst, hname⟩ := hf.named n j hstream
    rw [hstream] at h
    dsimp only at h
    rw [hst] at h
    dsimp only at h
    split_ifs at h
    cases h
    exact ⟨st, hst, hname⟩

variable {names : List StreamName} {is : List Nat}

theorem looking_kept (hf : f.Sound) (input : Input) {parent : ReadTable} {todo seen : List StreamName} {errs : List (StreamError × StreamName)}
    (h : (Thread.looking parent names todo seen is errs).Local f.heap) :
    Keeps f (.looking parent names todo seen is errs) (f.advance input (.looking parent names todo seen is errs)) := by
  obtain ⟨hnodup, htodo, hnamed⟩ := h
  cases todo with
  | nil =>
    refine Kept.goes hf hf.same rfl rfl ⟨hnodup, fun i hi => hnamed i ?_⟩ rfl
    exact (List.mem_insertionSort _).mp hi
  | cons n todo =>
    have hrest : ∀ m ∈ todo, m ∈ names := fun m hm => htodo m (List.mem_cons_of_mem _ hm)
    unfold Front.advance
    dsimp only
    split_ifs
    · exact Kept.goes hf hf.same rfl rfl ⟨hnodup, hrest, hnamed⟩ rfl
    · cases hlook : f.look parent n with
      | inl e => exact Kept.goes hf hf.same rfl rfl ⟨hnodup, hrest, hnamed⟩ rfl
      | inr i =>
        refine Kept.goes hf hf.same rfl rfl ⟨hnodup, hrest, fun j hj => ?_⟩ rfl
        rcases List.mem_append.mp hj with hold | hnew
        · exact hnamed j hold
        · obtain ⟨st, hst, hname⟩ := look_named hf hlook
          rw [List.mem_singleton.mp hnew]
          exact ⟨st, hst, hname ▸ htodo n List.mem_cons_self⟩

theorem flatMap_pick (hnodup : names.Nodup) {n : StreamName} (hn : n ∈ names)
    (rows : List Placed) : (names.flatMap fun m => if some n = some m then rows else []) = rows := by
  induction names with
  | nil => cases hn
  | cons m rest ih =>
    rw [List.nodup_cons] at hnodup
    rw [List.flatMap_cons]
    by_cases hm : n = m
    · subst hm
      have hnone : (rest.flatMap fun m => if some n = some m then rows else []) = [] := by
        rw [List.flatMap_eq_nil_iff]
        intro m hm
        refine if_neg fun heq => hnodup.1 ?_
        rw [Option.some.inj heq]
        exact hm
      rw [if_pos rfl, hnone, List.append_nil]
    · have hrest := (List.mem_cons.mp hn).resolve_left hm
      rw [if_neg (fun heq => hm (Option.some.inj heq)), List.nil_append, ih hnodup.2 hrest]

theorem commitRows_perm {heap : List WriteStream} (hnodup : names.Nodup)
    (hnamed : Thread.Named heap names is) : (Front.commitRows heap names is).Perm (is.flatMap (Front.heldRows heap)) := by
  unfold Front.commitRows
  induction is with
  | nil => simp
  | cons i rest ih =>
    obtain ⟨st, hst, hname⟩ := hnamed i List.mem_cons_self
    have hpick := flatMap_pick hnodup hname (Front.heldRows heap i)
    have hrest := ih fun j hj => hnamed j (List.mem_cons_of_mem _ hj)
    simp only [List.flatMap_cons]
    refine (List.flatMap_append_perm names _ _).symm.trans ?_
    rw [hst, Option.map_some, hpick]
    exact List.Perm.append_left _ hrest

theorem locking_kept (hf : f.Sound) (input : Input) {todo locked : List Nat}
    {errs : List (StreamError × StreamName)} (h : (Thread.locking names todo locked errs).Local f.heap) :
    Keeps f (.locking names todo locked errs) (f.advance input (.locking names todo locked errs)) := by
  obtain ⟨hnodup, hnamed⟩ := h
  cases todo with
  | nil =>
    rw [List.append_nil] at hnamed
    unfold Front.advance
    dsimp only
    split_ifs
    · exact Kept.releases hf hf.same rfl rfl rfl rfl
    · refine Kept.goes hf hf.same rfl rfl ⟨?_, fun i hi => ?_⟩ rfl
      · rw [List.nil_append, insertBatches_flatten]
        exact commitRows_perm hnodup hnamed
      · obtain ⟨st, hst, -⟩ := hnamed i hi
        exact ⟨st, hst⟩
  | cons i rest =>
    obtain ⟨st, hst, -⟩ := hnamed i (List.mem_append_right _ List.mem_cons_self)
    unfold Front.advance Front.lockNext
    dsimp only
    split_ifs with hlocked
    · exact Kept.goes hf hf.same rfl rfl ⟨hnodup, hnamed⟩ rfl
    · rw [hst]
      refine Kept.locks hf hlocked rfl rfl ⟨hnodup, ?_⟩
      rw [List.append_assoc]
      exact hnamed

theorem inserted_kept (hf : f.Sound) (ok : Bool) {job : Job} {wrote : List Placed} (honce : job.streams.Nodup)
    (h : (Thread.inserting job [] wrote).Local f.heap) :
    Keeps f (.inserting job [] wrote) (f.inserted ok job) := by
  obtain ⟨hwrote, hready⟩ := h
  rw [List.flatten_nil, List.append_nil] at hwrote
  unfold Front.inserted
  cases job with
  | append i rows =>
    obtain ⟨st, hi, htyp, hopen⟩ := hready
    have hshape := hf.shape i st hi
    have hflushed := (hshape.landed_eq (hshape.direct htyp)).2
    simp only [Job.placed, hi, Option.map_some, Option.getD_some] at hwrote
    dsimp only
    rw [hi]
    refine Kept.finishes hf hi (hshape.counting htyp hopen rows) (Front.filed_saveIf _ _ _) rfl ?_
      ⟨_, List.getElem?_set_self (List.getElem?_eq_some_iff.mp hi).1, fun j row hrow => ?_, fun _ => ?_⟩
    · rw [hflushed]
      exact hwrote.symm
    · change (st.appended ++ rows)[st.rows + j]? = some row
      rw [hshape.counted, List.getElem?_append_right (Nat.le_add_right _ _), Nat.add_sub_cancel_left]
      exact hrow
    · change st.rows + rows.length ≤ st.rows + rows.length - st.held.length
      rw [hshape.direct htyp]
      exact le_refl _
  | flush i n offset =>
    obtain ⟨st, hi, hflushed, hrows, rfl⟩ := hready
    have hshape := hf.shape i st hi
    have henough := hshape.enough
    have hn : offset - st.flushed + 1 ≤ st.held.length := by
      unfold WriteStream.flushed at hflushed ⊢
      omega
    simp only [Job.placed, Front.heldRows, hi, placed_take] at hwrote
    dsimp only
    rw [hi]
    refine Kept.finishes hf hi (hshape.flushing hn) (Front.filed_saveIf _ _ _) rfl ?_
      ⟨_, List.getElem?_set_self (List.getElem?_eq_some_iff.mp hi).1, ?_⟩
    · exact hwrote.symm
    · rw [WriteStream.flushed_flushing hshape hn]
      omega
  | commit is =>
    refine Kept.quiet hf hf.same (List.append_nil _) ?_ (fun t ht => ?_) fun r hr => Or.inl hr
    · rw [List.flatMap_singleton]
      exact hwrote.symm
    · rw [List.mem_singleton.mp ht]
      refine ⟨honce, fun i hi => hi, fun i hi => ?_⟩
      obtain ⟨st, hst⟩ := hready i hi
      exact ⟨st, hst, fun hnot => absurd hi hnot⟩

theorem inserting_kept (hf : f.Sound) (input : Input) {job : Job} {b : List Placed} {rest : List (List Placed)}
    {wrote : List Placed} (hfirst : input.ok = false → wrote = [])
    (h : (Thread.inserting job (b :: rest) wrote).Local f.heap) :
    Keeps f (.inserting job (b :: rest) wrote) (f.advance input (.inserting job (b :: rest) wrote)) := by
  unfold Front.advance
  dsimp only
  split_ifs with hok
  · refine ⟨hf.shape, hf.named, HeapGrows.refl _, fun _ _ _ _ hst => hst, fun left right hl => ?_, fun t ht => ?_,
      ⟨b, rfl, ?_⟩, fun r hr => Or.inl hr⟩
    · rw [List.flatMap_singleton]
      exact hl
    · rw [List.mem_singleton.mp ht]
      refine ⟨?_, h.2⟩
      have hperm := h.1
      rw [List.flatten_cons, ← List.append_assoc] at hperm
      exact hperm
    · rw [List.flatMap_singleton, List.append_assoc]
      exact List.Perm.refl _
  · have hnone := hfirst (Bool.eq_false_iff.mpr hok)
    exact Kept.releases (t := .inserting job (b :: rest) wrote) hf hf.same rfl rfl hnone hnone

theorem committing_kept (hf : f.Sound) (input : Input) {todo : List Nat}
    (h : (Thread.committing is todo).Local f.heap) :
    Keeps f (.committing is todo) (f.advance input (.committing is todo)) := by
  obtain ⟨hnodup, hmine, hdone⟩ := h
  cases todo with
  | nil =>
    refine Kept.releases hf hf.same rfl rfl rfl fun i hi => ?_
    obtain ⟨st, hst, hcommitted⟩ := hdone i hi
    exact ⟨st, hst, hcommitted List.not_mem_nil⟩
  | cons i todo =>
    obtain ⟨st, hst, -⟩ := hdone i (hmine i List.mem_cons_self)
    rw [List.nodup_cons] at hnodup
    have hlt := (List.getElem?_eq_some_iff.mp hst).1
    have hfiled := (f.setStream i st.committing).filed_saveIf input.ok st.committing
    have hkept : ∀ j ∈ todo, (f.heap.set i st.committing)[j]? = f.heap[j]? := by
      intro j hj
      refine List.getElem?_set_ne fun hij => hnodup.1 ?_
      rw [hij]
      exact hj
    unfold Front.advance
    dsimp only
    rw [hst]
    refine Kept.sets hf hst (hf.shape i st hst).committing (fun _ => hmine i List.mem_cons_self) hfiled.heap
      hfiled.table hfiled.streams (fun left right hl => ?_) (fun t ht => ?_) ?_ fun r hr => Or.inl (hfiled.replies ▸ hr)
    · rw [List.flatMap_singleton, hfiled.locks]
      exact hl
    · rw [List.mem_singleton.mp ht, hfiled.heap]
      refine ⟨hmine i List.mem_cons_self, hnodup.2, fun j hj => hmine j (List.mem_cons_of_mem _ hj), fun j hj => ?_⟩
      change ∃ st', (f.heap.set i st.committing)[j]? = some st' ∧ _
      by_cases hij : i = j
      · subst hij
        exact ⟨_, List.getElem?_set_self hlt, fun _ => rfl⟩
      · obtain ⟨st', hst', hcommitted⟩ := hdone j hj
        rw [List.getElem?_set_ne hij]
        refine ⟨st', hst', fun hnot => hcommitted fun hmem => ?_⟩
        rcases List.mem_cons.mp hmem with heq | hin
        · exact hij heq.symm
        · exact hnot hin
    · rw [List.flatMap_singleton, hfiled.heap]
      change (placed i st.flushed st.held ++ todo.flatMap (Front.heldRows (f.heap.set i st.committing))).Perm
        (Front.heldRows f.heap i ++ todo.flatMap (Front.heldRows f.heap))
      rw [heldRows_congr hkept]
      unfold Front.heldRows
      rw [hst]

theorem advance_kept (hf : f.Sound) (input : Input) (honce : t.owned.Nodup) (h : t.Local f.heap)
    (hfirst : ∀ job b rest wrote, t = .inserting job (b :: rest) wrote → input.ok = false → wrote = []) :
    Keeps f t (f.advance input t) := by
  have hgone : ∀ i : Nat, f.heap[i]? = none → t.owned = [] → t.extra f.heap = [] → Kept f t [] f := by
    intro i _ howned hextra
    refine Kept.quiet hf hf.same howned.symm (hextra ▸ List.Perm.nil) (fun t' ht' => ?_) fun r hr => Or.inl hr
    cases ht'
  cases t with
  | call c => exact call_kept hf input h
  | creating st => exact creating_kept hf input h
  | remembering i | rememberDefault c i =>
    unfold Front.advance
    dsimp only
    cases hi : f.heap[i]? with
    | none => exact hgone i hi rfl rfl
    | some st => exact remembered_kept hf hi rfl rfl rfl rfl trivial
  | makeDefault c name =>
    unfold Front.advance
    dsimp only
    cases hi : f.streams name with
    | some i => exact Kept.goes hf hf.same rfl rfl trivial rfl
    | none =>
      exact Kept.pushes hf (.new name .committed true input.now) rfl rfl rfl rfl rfl rfl rfl rfl (fun _ => rfl) rfl
        trivial
  | forgetting files next =>
    obtain ⟨howned, hextra, hnext⟩ := h
    cases files with
    | nil => exact Kept.goes hf hf.same howned hextra hnext rfl
    | cons file files =>
      unfold Front.advance
      dsimp only
      have hfiled := f.filed_removeFile file
      split_ifs
      · exact Kept.goes hf (hfiled.same hf) rfl rfl ⟨howned, hextra, hnext⟩ hfiled.replies
      · exact Kept.goes hf hf.same rfl rfl ⟨howned, hextra, hnext⟩ rfl
  | answering r => exact Kept.answers hf rfl rfl h
  | found c i =>
    unfold Front.advance
    dsimp only
    cases hi : f.heap[i]? with
    | none => exact hgone i hi rfl rfl
    | some st =>
      have hnothing : Kept f (.found c i) [] f := by
        refine Kept.quiet hf hf.same rfl List.Perm.nil (fun t' ht' => ?_) fun r hr => Or.inl hr
        cases ht'
      cases c with
      | get name => exact Kept.answers hf rfl rfl trivial
      | append name offset rows => exact found_append_kept hf hi offset rows
      | flush name offset => exact found_flush_kept hf hi offset
      | finalize name => exact found_finalize_kept hf input.ok hi
      | create table typ => exact hnothing
      | commit parent names => exact hnothing
  | opening i rows => exact open_kept hf input.ok h
  | writing i rows => exact write_kept hf input h
  | accepting i rows size => exact accept_kept hf input.ok h
  | looking parent names todo seen is errs => exact looking_kept hf input h
  | locking names todo locked errs => exact locking_kept hf input h
  | inserting job left wrote =>
    cases left with
    | nil => exact inserted_kept hf input.ok honce h
    | cons b rest => exact inserting_kept hf input (hfirst job b rest wrote rfl) h
  | committing is todo => exact committing_kept hf input h
  | dropping is i todo =>
    obtain ⟨st, hst, -⟩ := h.2.2.2 i h.1
    have hfiled := f.filed_removeFile (st.name.id, false)
    unfold Front.advance
    dsimp only
    rw [hst]
    dsimp only
    split_ifs
    · exact Kept.goes hf (hfiled.same hf) rfl rfl h.2 hfiled.replies
    · exact Kept.goes hf hf.same rfl rfl h.2 rfl

end Calls

end CloudBurrow.StorageWrite
