import CloudBurrow.FrontState.Save

namespace CloudBurrow.FrontState

open Utf8 Transaction

variable {D : Type} {encode : D → Option Bytes} {past : List (Save D)}
variable {disk : Disk}

theorem Whole.mono {past' : List (Save D)} (h : Whole encode past disk)
    (hsub : ∀ s ∈ past, s ∈ past') : Whole encode past' disk := by
  intro records hrecords
  obtain ⟨s, hs, heq, hholds⟩ := h records hrecords
  exact ⟨s, hsub s hs, heq, hholds⟩

theorem Faithful.opened (disk : Disk) : Faithful encode disk Store.opened := by
  refine ⟨fun records h => ?_, fun key d h => ?_⟩
  · cases h
  · have hnone : (Store.opened : Store D).written[key]? = none := by simp [Store.opened]
    rw [hnone] at h
    cases h

theorem insert_cases {A : Type} {m : Std.ExtTreeMap Bytes A} {key key' : Bytes} {a b : A}
    (h : (m.insert key a)[key']? = some b) : (key = key' ∧ a = b) ∨ (key ≠ key' ∧ m[key']? = some b) := by
  rw [Std.ExtTreeMap.getElem?_insert] at h
  split_ifs at h with heq
  · exact .inl ⟨Std.LawfulEqCmp.eq_of_compare heq, Option.some.inj h⟩
  · exact .inr ⟨fun hkey => heq (hkey ▸ Std.ReflCmp.compare_self), h⟩

theorem copied_insert {copies : Std.ExtTreeMap Bytes Bytes} {key key' data : Bytes} {d : D}
    (hsame : key = key' → encode d = some data)
    (hother : key ≠ key' → ∃ old, encode d = some old ∧ copies[key']? = some old) :
    ∃ new, encode d = some new ∧ (copies.insert key data)[key']? = some new := by
  by_cases hkey : key = key'
  · refine ⟨data, hsame hkey, ?_⟩
    rw [hkey]
    simp
  · obtain ⟨old, hencode, hold⟩ := hother hkey
    refine ⟨old, hencode, ?_⟩
    rw [Std.ExtTreeMap.getElem?_insert, if_neg fun heq => hkey (Std.LawfulEqCmp.eq_of_compare heq)]
    exact hold

theorem Holds.insert {s : Save D} {key data : Bytes} (h : Holds encode disk s)
    (hsame : ∀ e ∈ s.copies, e.1 = key → encode e.2 = some data) :
    Holds encode { disk with copies := disk.copies.insert key data } s :=
  fun e he => copied_insert (fun hkey => hsame e he hkey.symm) fun _ => h e he

theorem Faithful.insert {store : Store D} {key data : Bytes} {d : D}
    (h : Faithful encode disk store) (hd : encode d = some data) :
    Faithful encode { disk with copies := disk.copies.insert key data }
      { store with written := store.written.insert key d } := by
  refine ⟨h.last, fun key' d' hd' => ?_⟩
  rcases insert_cases hd' with ⟨rfl, rfl⟩ | ⟨hkey, hold⟩
  · exact copied_insert (fun _ => hd) fun hne => absurd rfl hne
  · exact copied_insert (fun heq => absurd heq hkey) fun _ => h.written key' d' hold

section Saving

variable {s : Save D}

theorem fileOp_triple {f : Disk → Disk} {pre fail : Site D → Prop} {post : Unit → Site D → Prop}
    (h : ∀ x outcomes, pre x → post () ⟨f x.disk, x.store, outcomes⟩)
    (hfail : ∀ x outcomes, pre x → fail ⟨x.disk, x.store, outcomes⟩) :
    Triple pre (fileOp f) post fail := by
  intro x hx
  unfold fileOp
  cases x.outcomes.headD .done with
  | done =>
    refine ⟨fun a t hrun => ?_, fun e t hrun => ?_⟩ <;> cases hrun
    exact h x _ hx
  | failed | stopped =>
    refine ⟨fun a t hrun => ?_, fun e t hrun => ?_⟩ <;> cases hrun
    exact hfail x _ hx

structure Copying (encode : D → Option Bytes) (past : List (Save D)) (s : Save D) (x : Site D) : Prop where
  faithful : Faithful encode x.disk x.store
  whole : Whole encode past x.disk
  same : SameCopies encode past x.disk s

variable {x : Site D} {outcomes : List Outcome}

theorem Copying.put {e : Bytes × D} {data : Bytes} (h : Copying encode past s x)
    (he : e ∈ s.copies) (hdata : encode e.2 = some data) :
    Copying encode past s ⟨{ x.disk with copies := x.disk.copies.insert e.1 data },
      { x.store with written := x.store.written.insert e.1 e.2 }, outcomes⟩ := by
  refine ⟨h.faithful.insert hdata, fun records hrecords => ?_, h.same⟩
  obtain ⟨p, hp, heq, hholds⟩ := h.whole records hrecords
  refine ⟨p, hp, heq, hholds.insert fun e' he' hkey => ?_⟩
  have hrecords' : x.disk.records = some p.records := heq ▸ hrecords
  rw [h.same p hp hrecords' e' he' e he hkey]
  exact hdata

def Stored (encode : D → Option Bytes) (s : Save D) (e : Bytes × D) (x : Site D) : Prop :=
  e ∈ s.copies → ∃ data, encode e.2 = some data ∧ x.disk.copies[e.1]? = some data

structure Recorded (encode : D → Option Bytes) (s : Save D) (x : Site D) : Prop where
  faithful : Faithful encode x.disk x.store
  records : x.disk.records = some s.records
  holds : Holds encode x.disk s

theorem Recorded.erase {key : Bytes} (h : Recorded encode s x) (hkey : key ∉ s.copies.map Prod.fst) :
    Recorded encode s ⟨{ x.disk with copies := x.disk.copies.erase key },
      { x.store with written := x.store.written.erase key }, outcomes⟩ := by
  refine ⟨⟨h.faithful.last, fun key' d hd => ?_⟩, h.records, fun e he => ?_⟩
  · change (x.store.written.erase key)[key']? = some d at hd
    rw [Std.ExtTreeMap.getElem?_erase] at hd
    split_ifs at hd with hne
    obtain ⟨data, hencode, hdata⟩ := h.faithful.written key' d hd
    refine ⟨data, hencode, ?_⟩
    rw [Std.ExtTreeMap.getElem?_erase, if_neg hne]
    exact hdata
  · obtain ⟨data, hencode, hdata⟩ := h.holds e he
    refine ⟨data, hencode, ?_⟩
    change (x.disk.copies.erase key)[e.1]? = _
    rw [Std.ExtTreeMap.getElem?_erase, if_neg fun heq => hkey ?_]
    · exact hdata
    · rw [Std.LawfulEqCmp.eq_of_compare heq]
      exact List.mem_map_of_mem he

theorem Recorded.forget (h : Recorded encode s x) (key : Bytes) :
    Recorded encode s ⟨x.disk, { x.store with written := x.store.written.erase key }, outcomes⟩ := by
  refine ⟨⟨h.faithful.last, fun key' d hd => ?_⟩, h.records, h.holds⟩
  change (x.store.written.erase key)[key']? = some d at hd
  rw [Std.ExtTreeMap.getElem?_erase] at hd
  split_ifs at hd
  exact h.faithful.written key' d hd

theorem written_triple {f : Disk → Disk} {g : Store D → Store D} {post : Unit → Site D → Prop}
    (hx : Copying encode past s x) (hpost : ∀ outcomes, post () ⟨f x.disk, g x.store, outcomes⟩) :
    Triple (fun y => y = x) (fileOp f >>= fun _ => remember g) post (fun y => Copying encode past s y) := by
  have hwrite : Triple (fun y => y = x) (fileOp f) (fun _ y => ∃ outcomes, y = ⟨f x.disk, x.store, outcomes⟩)
      (fun y => Copying encode past s y) := by
    refine fileOp_triple (fun y outcomes hy => ⟨outcomes, by rw [hy]⟩) fun y outcomes hy => ?_
    subst hy
    exact ⟨hx.faithful, hx.whole, hx.same⟩
  refine Triple.bind hwrite fun _ => Triple.writing fun y hy => ?_
  obtain ⟨outcomes, rfl⟩ := hy
  exact hpost outcomes

theorem records_triple : Triple (fun x => Copying encode past s x ∧ ∀ e ∈ s.copies, Stored encode s e x)
      (writeRecords s.records) (fun _ x => Recorded encode s x) (fun x => Copying encode past s x) := by
  unfold writeRecords
  refine Triple.peek fun x hx => ?_
  have hholds : Holds encode x.disk s := fun e he => hx.2 e he he
  refine Triple.deciding (fun hlast => Triple.result fun y hy => ?_) fun _ => ?_
  · subst hy
    exact ⟨hx.1.faithful, hx.1.faithful.last _ hlast, hholds⟩
  · refine written_triple hx.1 fun outcomes => ⟨⟨fun records hrecords => ?_, hx.1.faithful.written⟩, rfl, hholds⟩
    cases hrecords
    rfl

theorem removing_triple {key : Bytes} (hkey : key ∉ s.copies.map Prod.fst) :
    Triple (fun x => Recorded encode s x)
      (remove key >>= fun _ => remember fun st => { st with written := st.written.erase key })
      (fun _ x => Recorded encode s x) (fun x => Recorded encode s x) := by
  intro x hx
  rw [Txn.run_bind]
  unfold remove
  cases x.outcomes.headD .done with
  | done =>
    refine ⟨fun a t hrun => ?_, fun e t hrun => ?_⟩ <;> cases hrun
    exact hx.erase hkey
  | failed =>
    refine ⟨fun a t hrun => ?_, fun e t hrun => ?_⟩ <;> cases hrun
    exact hx.forget key
  | stopped =>
    refine ⟨fun a t hrun => ?_, fun e t hrun => ?_⟩ <;> cases hrun
    exact ⟨hx.faithful, hx.records, hx.holds⟩

variable [DecidableEq D]

theorem writeCopy_triple {e : Bytes × D} (he : e ∈ s.copies) {P : Site D → Prop}
    (hP : ∀ x data outcomes, encode e.2 = some data → P x →
      P ⟨{ x.disk with copies := x.disk.copies.insert e.1 data },
        { x.store with written := x.store.written.insert e.1 e.2 }, outcomes⟩) :
    Triple (fun x => Copying encode past s x ∧ P x) (writeCopy encode e)
      (fun _ x => (Copying encode past s x ∧ P x) ∧ Stored encode s e x)
      (fun x => Copying encode past s x) := by
  unfold writeCopy
  refine Triple.peek fun x hx => ?_
  refine Triple.deciding (fun hwritten => Triple.result fun y hy => ?_) fun _ => ?_
  · subst hy
    exact ⟨hx, fun _ => hx.1.faithful.written e.1 e.2 hwritten⟩
  · cases hdata : encode e.2 with
    | none =>
      refine Triple.refused fun y hy => ?_
      subst hy
      exact hx.1
    | some data =>
      refine written_triple hx.1 fun outcomes => ?_
      exact ⟨⟨hx.1.put he hdata, hP x data outcomes hdata hx.2⟩, fun _ => ⟨data, hdata, by simp⟩⟩

theorem copies_triple : Triple (fun x => Copying encode past s x) (Txn.forEach s.copies (writeCopy encode))
      (fun _ x => Copying encode past s x ∧ ∀ e ∈ s.copies, Stored encode s e x)
      (fun x => Copying encode past s x) := by
  refine Triple.each_done (fun e he => ?_) fun e he e' => ?_
  · refine (writeCopy_triple he (P := fun _ => True) fun _ _ _ _ _ => trivial).conseq
      (fun x hx => ⟨hx, trivial⟩) (fun _ x hx => ⟨hx.1.1, hx.2⟩) fun _ hx => hx
  · refine (writeCopy_triple he fun x data outcomes hdata hx he' => ?_).conseq (fun _ hx => hx)
      (fun _ x hx => hx.1) fun _ hx => hx
    refine copied_insert (fun hkey => ?_) fun _ => hx he'
    have heq : e = e' := List.inj_on_of_nodup_map s.distinct he he' hkey
    exact heq ▸ hdata

structure Kept (encode : D → Option Bytes) (past : List (Save D)) (x : Disk × Store D) : Prop where
  faithful : Faithful encode x.1 x.2
  whole : Whole encode past x.1

theorem save_triple : Triple (fun x => Copying encode past s x) (save encode s)
      (fun _ x => Kept encode (past ++ [s]) (x.disk, x.store))
      (fun x => Kept encode (past ++ [s]) (x.disk, x.store)) := by
  have hcopying : ∀ x, Copying encode past s x → Kept encode (past ++ [s]) (x.disk, x.store) :=
    fun x hx => ⟨hx.faithful, hx.whole.mono fun p hp => List.mem_append_left [s] hp⟩
  have hrecorded : ∀ x, Recorded encode s x → Kept encode (past ++ [s]) (x.disk, x.store) := by
    intro x hx
    refine ⟨hx.faithful, fun records hrecords => ⟨s, by simp, ?_, hx.holds⟩⟩
    rw [hx.records] at hrecords
    exact Option.some.inj hrecords
  unfold save
  refine Triple.bind (copies_triple.conseq (fun _ hx => hx) (fun _ _ hx => hx) hcopying) fun _ => ?_
  refine Triple.bind (records_triple.conseq (fun _ hx => hx) (fun _ _ hx => hx) hcopying) fun _ => ?_
  have hlist : Triple (fun x => Recorded encode s x) (fileOp id) (fun _ x => Recorded encode s x)
      (fun x => Kept encode (past ++ [s]) (x.disk, x.store)) :=
    fileOp_triple (fun x _ hx => ⟨hx.faithful, hx.records, hx.holds⟩) fun x _ hx =>
      hrecorded _ ⟨hx.faithful, hx.records, hx.holds⟩
  refine Triple.bind hlist fun _ => Triple.peek fun x hx => ?_
  have hloop : Triple (fun y => Recorded encode s y) (Txn.forEach x.disk.copies.keys fun key =>
        if key ∈ s.copies.map Prod.fst then pure ()
        else remove key >>= fun _ => remember fun st => { st with written := st.written.erase key })
      (fun _ y => Recorded encode s y) (fun y => Recorded encode s y) := by
    refine Triple.each fun key _ => Triple.deciding (fun _ => Triple.result fun _ hy => hy) fun hkey => ?_
    exact removing_triple hkey
  exact hloop.conseq (fun y hy => hy ▸ hx) (fun _ y hy => hrecorded y hy) hrecorded

end Saving

section Runs

variable [DecidableEq D]

def Call.Asks (encode : D → Option Bytes) (past : List (Save D)) (x : Disk × Store D) : Call D → Prop
  | .save s _ => SameCopies encode past x.1 s
  | .markRead key data => ∃ content, encode data = some content ∧ x.1.copies[key]? = some content
  | .restart => True

def Meets (encode : D → Option Bytes) : List (Save D) → List (Call D) → Disk × Store D → Prop
  | _, [], _ => True
  | past, c :: rest, x => c.Asks encode past x ∧ Meets encode (past ++ c.saves) rest (c.run encode x)

theorem Call.run_kept {c : Call D} {x : Disk × Store D} (h : Kept encode past x)
    (hc : c.Asks encode past x) : Kept encode (past ++ c.saves) (c.run encode x) := by
  cases c with
  | save s outcomes =>
    obtain ⟨hok, hfail⟩ := save_triple ⟨x.1, x.2, outcomes⟩ ⟨h.faithful, h.whole, hc⟩
    rcases hrun : FrontState.save encode s ⟨x.1, x.2, outcomes⟩ with ⟨r, t⟩
    simp only [Call.run, hrun]
    cases r with
    | ok a => exact hok a t hrun
    | error e =>
      cases e with
      | failed => exact hfail .failed t hrun
      | stopped => exact ⟨Faithful.opened t.disk, (hfail .stopped t hrun).whole⟩
  | markRead key data =>
    obtain ⟨content, hdata, hcontent⟩ := hc
    have hpast : past ++ (Call.markRead key data).saves = past := List.append_nil past
    rw [hpast]
    refine ⟨⟨h.faithful.last, fun key' d hd => ?_⟩, h.whole⟩
    rcases insert_cases hd with ⟨rfl, rfl⟩ | ⟨-, hold⟩
    · exact ⟨content, hdata, hcontent⟩
    · exact h.faithful.written key' d hold
  | restart =>
    have hpast : past ++ (Call.restart : Call D).saves = past := List.append_nil past
    rw [hpast]
    exact ⟨Faithful.opened x.1, h.whole⟩

theorem runAll_kept {calls : List (Call D)} {x : Disk × Store D} (h : Kept encode past x)
    (hcalls : Meets encode past calls x) :
    Kept encode (past ++ calls.flatMap Call.saves) (runAll encode calls x) := by
  induction calls generalizing past x with
  | nil =>
    rw [List.flatMap_nil, List.append_nil]
    exact h
  | cons c rest ih =>
    have hrest := ih (Call.run_kept h hcalls.1) hcalls.2
    rw [List.append_assoc] at hrest
    exact hrest

theorem saved_state_is_of_one_save (encode : D → Option Bytes) (calls : List (Call D))
    (hcalls : Meets encode [] calls start) :
    Whole encode (calls.flatMap Call.saves) (runAll encode calls start).1 := by
  have hstart : Kept encode [] (start : Disk × Store D) := by
    refine ⟨Faithful.opened _, fun records hrecords => ?_⟩
    cases hrecords
  exact (runAll_kept hstart hcalls).whole

instance instDecidableSameCopies (encode : D → Option Bytes) (past : List (Save D)) (disk : Disk)
    (s : Save D) : Decidable (SameCopies encode past disk s) :=
  inferInstanceAs (Decidable (∀ p ∈ past, disk.records = some p.records → ∀ e ∈ p.copies,
    ∀ e' ∈ s.copies, e.1 = e'.1 → encode e.2 = encode e'.2))

end Runs

def byteCopy (n : Nat) : Option Bytes := some [UInt8.ofNat n]

def keptCalls : List (Call Nat) :=
  [.save ⟨ascii "a", [(ascii "b1", 1)], by decide⟩ [],
    .save ⟨ascii "ab", [(ascii "b1", 1), (ascii "b2", 2)], by decide⟩ [.done, .stopped]]

theorem keptCalls_whole : Whole byteCopy (keptCalls.flatMap Call.saves) (runAll byteCopy keptCalls start).1 ∧
      (runAll byteCopy keptCalls start).1.records = some (ascii "a") :=
  ⟨saved_state_is_of_one_save byteCopy keptCalls ⟨by change SameCopies byteCopy [] _ _; decide +kernel,
      by change SameCopies byteCopy _ _ _; decide +kernel, trivial⟩, by decide +kernel⟩

def retakenCalls : List (Call Nat) :=
  [.save ⟨ascii "a", [(ascii "b1", 1)], by decide⟩ [],
    .save ⟨ascii "aa", [(ascii "b1", 2)], by decide⟩ [.done, .stopped]]

theorem retakenCalls_mixed :
    ¬ Whole byteCopy (retakenCalls.flatMap Call.saves) (runAll byteCopy retakenCalls start).1 := by
  intro hwhole
  have hrecords : (runAll byteCopy retakenCalls start).1.records = some (ascii "a") := by decide +kernel
  have hcopy : (runAll byteCopy retakenCalls start).1.copies[ascii "b1"]? = some [2] := by decide +kernel
  obtain ⟨s, hs, hrecords', hholds⟩ := hwhole _ hrecords
  rcases List.mem_cons.mp hs with rfl | hs
  · obtain ⟨data, hdata, hcopy'⟩ := hholds (ascii "b1", 1) (by simp)
    rw [hcopy] at hcopy'
    cases hdata
    cases hcopy'
  · rw [List.mem_singleton.mp hs] at hrecords'
    revert hrecords'
    decide

end CloudBurrow.FrontState
