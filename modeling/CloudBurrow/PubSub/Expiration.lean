import CloudBurrow.PubSub.Readings

namespace CloudBurrow.PubSub

open Threads

variable {Name : Type} [DecidableEq Name]

section Counts

def Thread.counted (name : Name) (record : Nat) : Thread Name → Bool
  | .streamingPull n (.upstream k) | .streamingPull n (.opened k _) => n = name && k = record
  | _ => false

structure Counted (s : World Name) : Prop where
  streams : ∀ name r, s.shared.subs.lookup name = some r → r.streams = s.threads.countP (Thread.counted name r.record)
  held : ∀ name record id, .streamingPull name (.opened record (some id)) ∈ s.threads →
    ∀ e, s.shared.emulator name = some e → e.id = id → ∃ r, s.shared.subs.lookup name = some r ∧ r.record = record
  records : ∀ name r, s.shared.subs.lookup name = some r → r.record < s.shared.records
  asked : ∀ t ∈ s.threads, ∀ name record, t.counted name record = true → record < s.shared.records
  ids : ∀ name record id, .streamingPull name (.opened record (some id)) ∈ s.threads → id < s.shared.ids

variable {f : Front Name} {op : Op Name} {name n : Name} {input : Input} {t t' : Thread Name}

theorem counted_after {record : Nat} (hmem : t' ∈ t.after input f) (h : t'.counted name record = true) :
    (t = .streamingPull name .request ∧ record = (f.subs.lookup name).elim f.records SubState.record) ∨
      t.counted name record = true := by
  cases t with
  | streamingPull n stage =>
    cases stage with
    | request =>
      obtain rfl := List.mem_singleton.mp hmem
      simp only [Thread.counted, Bool.and_eq_true, decide_eq_true_eq] at h
      obtain ⟨rfl, rfl⟩ := h
      exact .inl ⟨rfl, rfl⟩
    | upstream k =>
      obtain rfl := List.mem_singleton.mp hmem
      exact .inr h
    | opened k sub => cases hmem
  | sweep stage =>
    obtain ⟨stage', -, rfl⟩ := List.mem_map.mp hmem
    cases h
  | pull n stage | create n p push stage | delete n stage | update n p labels push stage =>
    cases stage <;> simp only [Thread.after] at hmem <;> (try split_ifs at hmem) <;> simp at hmem <;>
      subst hmem <;> cases h
  | advance d =>
    obtain rfl := List.mem_singleton.mp hmem
    cases h
  | relayed n | pass d | relay on => cases hmem

theorem opened_after {record id : Nat} (hmem : .streamingPull name (.opened record (some id)) ∈ t.after input f) :
    t = .streamingPull name (.upstream record) ∧ input.answer ≠ .refused ∧ f.owner name = some id := by
  have hcounted : (Thread.streamingPull name (.opened record (some id))).counted name record = true := by
    simp [Thread.counted]
  rcases counted_after hmem hcounted with ⟨rfl, -⟩ | hold
  · simp [Thread.after] at hmem
  · cases t with
    | streamingPull n stage =>
      cases stage with
      | request => cases hold
      | upstream k =>
        have heq := List.mem_singleton.mp hmem
        simp only [Thread.streamingPull.injEq, StreamStage.opened.injEq] at heq
        obtain ⟨rfl, rfl, hsub⟩ := heq
        split_ifs at hsub with hrefused
        exact ⟨rfl, hrefused, hsub.symm⟩
      | opened k sub => cases hmem
    | _ => cases hold

omit [DecidableEq Name] in
theorem count_replaced (left right ls : List (Thread Name)) (t : Thread Name) (p : Thread Name → Bool) :
    (left ++ ls ++ right).countP p + [t].countP p = (left ++ t :: right).countP p + ls.countP p := by
  simp only [List.countP_append, List.countP_cons, List.countP_nil]
  omega

theorem lookup_cases {r : SubState} (h : (op.apply f).subs.lookup name = some r) :
    r.record = ((f.subs.lookup name).getD ⟨0, 0, f.records⟩).record ∧
      (op.plain = true → r.streams = ((f.subs.lookup name).getD ⟨0, 0, f.records⟩).streams) ∧
      (f.subs.lookup name = none → (op.apply f).records = f.records + 1) := by
  by_cases hmark : op.marks name = true
  · cases op with
    | touch n | openStream n | closeStream n =>
      obtain rfl : n = name := of_decide_eq_true hmark
      simp only [Op.apply, Front.touch, Front.openStream, Front.closeStream, Front.lookup_mark, if_true] at h
      obtain rfl := Option.some.inj h
      refine ⟨rfl, fun hplain => ?_, fun _ => rfl⟩
      first | rfl | cases hplain
    | _ => cases hmark
  · rcases lookup_of_apply h with ⟨hmark', -⟩ | ⟨-, hold⟩
    · exact absurd hmark' hmark
    · simp [hold]

theorem record_kept {r : SubState} (h : f.subs.lookup name = some r) :
    (∃ r', (op.apply f).subs.lookup name = some r' ∧ r'.record = r.record) ∨ op = .forget name ∨ r.streams = 0 := by
  cases op with
  | touch n | openStream n | closeStream n =>
    simp only [Op.apply, Front.touch, Front.openStream, Front.closeStream, Front.lookup_mark]
    split_ifs with heq
    · subst heq
      exact .inl ⟨_, rfl, by rw [h]; rfl⟩
    · exact .inl ⟨r, h, rfl⟩
  | forget n =>
    by_cases heq : name = n
    · exact .inr (.inl (heq ▸ rfl))
    · refine .inl ⟨r, ?_, rfl⟩
      simp only [Op.apply, Front.forget, lookup_erase, heq, if_false, h]
  | forgetIfIdleSince n last =>
    by_cases heq : name = n
    · subst heq
      cases hidle : f.idleSince name last with
      | true =>
        obtain ⟨r', hr', hstreams, -⟩ := idleSince_iff.mp hidle
        rw [h] at hr'
        obtain rfl := Option.some.inj hr'
        exact .inr (.inr hstreams)
      | false => exact .inl ⟨r, by simpa [Op.apply, Front.forgetIfIdleSince, hidle] using h, rfl⟩
    · refine .inl ⟨r, ?_, rfl⟩
      simp only [Op.apply, Front.forgetIfIdleSince]
      split_ifs
      · simp only [lookup_erase, heq, if_false, h]
      · exact h
  | _ => exact .inl ⟨r, h, rfl⟩

theorem records_le_apply : f.records ≤ (op.apply f).records := by
  cases op with
  | touch n | openStream n | closeStream n => exact Nat.le_succ _
  | forgetIfIdleSince n last =>
    simp only [Op.apply, Front.forgetIfIdleSince]
    split_ifs <;> exact le_refl _
  | _ => exact le_refl _

theorem record_mark (f : Front Name) (name : Name) :
    ((f.subs.lookup name).getD ⟨0, 0, f.records⟩).record = (f.subs.lookup name).elim f.records SubState.record := by
  cases f.subs.lookup name <;> rfl

theorem Counted.fresh {s : World Name} (h : Counted s) (name : Name) :
    s.threads.countP (Thread.counted name s.shared.records) = 0 := by
  rw [List.countP_eq_zero]
  intro t ht hcounted
  exact absurd (h.asked t ht name _ hcounted) (lt_irrefl _)

theorem Counted.marked {s : World Name} (h : Counted s) (name : Name) :
    ((s.shared.subs.lookup name).getD ⟨0, 0, s.shared.records⟩).streams = s.threads.countP
      (Thread.counted name ((s.shared.subs.lookup name).getD ⟨0, 0, s.shared.records⟩).record) := by
  cases hlook : s.shared.subs.lookup name with
  | none => exact (h.fresh name).symm
  | some r => exact h.streams name r hlook

end Counts

section CountSteps

variable {f : Front Name} {input : Input} {t : Thread Name} {left right : List (Thread Name)}

theorem count_after {record : Nat} (hreq : ∀ n, t ≠ .streamingPull n .request)
    (hopened : ∀ n k sub, t ≠ .streamingPull n (.opened k sub)) (name : Name) :
    (t.after input f).countP (Thread.counted name record) = [t].countP (Thread.counted name record) := by
  cases ht : t.counted name record with
  | true =>
    cases t with
    | streamingPull n stage =>
      cases stage with
      | request => exact absurd rfl (hreq n)
      | upstream k => rfl
      | opened k sub => exact absurd rfl (hopened n k sub)
    | _ => cases ht
  | false =>
    have hnone : (t.after input f).countP (Thread.counted name record) = 0 := by
      rw [List.countP_eq_zero]
      intro t' hmem hcounted
      rcases counted_after hmem hcounted with ⟨heq, -⟩ | hold
      · exact hreq name heq
      · rw [ht] at hold
        cases hold
    rw [hnone, List.countP_singleton, ht]
    rfl

variable {n name : Name} {r : SubState}

theorem Counted.unchanged (h : Counted ⟨f, left ++ t :: right⟩) (hr : f.subs.lookup name = some r)
    (hsame : (t.after input f).countP (Thread.counted name r.record) = [t].countP (Thread.counted name r.record)) :
    r.streams = (left ++ t.after input f ++ right).countP (Thread.counted name r.record) := by
  have hcount := count_replaced left right (t.after input f) t (Thread.counted name r.record)
  have hold := h.streams name r hr
  dsimp only at hold
  omega

theorem Counted.plain_streams (h : Counted ⟨f, left ++ t :: right⟩) (hplain : (t.op input f).plain = true)
    (hr : ((t.op input f).apply f).subs.lookup name = some r) :
    r.streams = (left ++ t.after input f ++ right).countP (Thread.counted name r.record) := by
  have hreq : ∀ n, t ≠ .streamingPull n .request := by
    rintro n rfl
    cases hplain
  have hopened : ∀ n k sub, t ≠ .streamingPull n (.opened k sub) := by
    rintro n k sub rfl
    cases hplain
  obtain ⟨hrecord, hstreams, -⟩ := lookup_cases hr
  have hcount := count_replaced left right (t.after input f) t (Thread.counted name r.record)
  have hsame : (t.after input f).countP (Thread.counted name r.record) = _ := count_after hreq hopened name
  have hold := h.marked name
  dsimp only at hold
  rw [← hrecord, ← hstreams hplain] at hold
  omega

theorem Counted.openStream_streams (h : Counted ⟨f, left ++ .streamingPull n .request :: right⟩)
    (hr : (f.openStream n).subs.lookup name = some r) :
    r.streams = (left ++ (Thread.streamingPull n .request).after input f ++ right).countP
      (Thread.counted name r.record) := by
  have hcount := count_replaced left right ((Thread.streamingPull n .request).after input f) (.streamingPull n .request)
    (Thread.counted name r.record)
  have hnone : [Thread.streamingPull n .request].countP (Thread.counted name r.record) = 0 := rfl
  simp only [Front.openStream, Front.lookup_mark] at hr
  split_ifs at hr with heq
  · subst heq
    obtain rfl := Option.some.inj hr
    have hone : ((Thread.streamingPull name .request).after input f).countP
        (Thread.counted name ((f.subs.lookup name).getD ⟨0, 0, f.records⟩).record) = 1 := by
      simp [Thread.after, Thread.counted, record_mark]
    have hold := h.marked name
    dsimp only at hcount hnone hold ⊢
    omega
  · refine h.unchanged hr (Eq.trans ?_ hnone.symm)
    rw [List.countP_eq_zero]
    intro t' hmem hcounted
    rcases counted_after hmem hcounted with ⟨hsame, -⟩ | hold
    · exact heq (Thread.streamingPull.inj hsame).1.symm
    · cases hold

theorem Counted.closeStream_streams {k : Nat} {sub : Option Nat}
    (h : Counted ⟨f, left ++ .streamingPull n (.opened k sub) :: right⟩)
    (hsteady : ∀ r, f.subs.lookup n = some r → r.record = k ∨ r.streams = 0)
    (hr : (f.closeStream n).subs.lookup name = some r) :
    r.streams = (left ++ (Thread.streamingPull n (.opened k sub)).after input f ++ right).countP
      (Thread.counted name r.record) := by
  have hcount := count_replaced left right ((Thread.streamingPull n (.opened k sub)).after input f)
    (.streamingPull n (.opened k sub)) (Thread.counted name r.record)
  have hnone : ((Thread.streamingPull n (.opened k sub)).after input f).countP (Thread.counted name r.record) = 0 := rfl
  simp only [Front.closeStream, Front.lookup_mark] at hr
  split_ifs at hr with heq
  · subst heq
    obtain rfl := Option.some.inj hr
    have hold := h.marked name
    have hlast : ((f.subs.lookup name).getD ⟨0, 0, f.records⟩).record = k ∨
        ((f.subs.lookup name).getD ⟨0, 0, f.records⟩).streams = 0 := by
      cases hlook : f.subs.lookup name with
      | none => exact .inr rfl
      | some r₀ => exact hsteady r₀ hlook
    dsimp only at hcount hnone hold ⊢
    rcases hlast with hrec | hzero
    · have hone : [Thread.streamingPull name (.opened k sub)].countP
          (Thread.counted name ((f.subs.lookup name).getD ⟨0, 0, f.records⟩).record) = 1 := by
        simp [Thread.counted, hrec]
      omega
    · omega
  · refine h.unchanged hr (hnone.trans ?_)
    simp [Thread.counted, Ne.symm heq]

theorem Counted.step_streams (h : Counted ⟨f, left ++ t :: right⟩)
    (hsteady : t.steady input ⟨f, left ++ t :: right⟩ = true) (hr : ((t.op input f).apply f).subs.lookup name = some r) :
    r.streams = (left ++ t.after input f ++ right).countP (Thread.counted name r.record) := by
  rcases t.op_cases input f with ⟨hplain, -⟩ | ⟨n, rfl⟩ | ⟨n, k, sub, rfl⟩ | ⟨n, rfl⟩
  · exact h.plain_streams hplain hr
  · exact h.openStream_streams hr
  · refine h.closeStream_streams (fun r hr => ?_) hr
    simpa [Thread.steady, hr] using hsteady
  · rcases lookup_of_apply hr with ⟨hmark, -⟩ | ⟨-, hold⟩
    · cases hmark
    · exact h.unchanged hold (count_after (by simp) (by simp) name)

theorem Counted.step_held (h : Counted ⟨f, left ++ t :: right⟩) (hsteady : t.steady input ⟨f, left ++ t :: right⟩ = true)
    {record id : Nat} (hmem : .streamingPull name (.opened record (some id)) ∈ left ++ t :: right) {e : Sub}
    (he : ((t.op input f).apply f).emulator name = some e) (hid : e.id = id) :
    ∃ r, ((t.op input f).apply f).subs.lookup name = some r ∧ r.record = record := by
  have hlt : id < f.ids := h.ids name record id hmem
  -- the subscription is not one the step creates
  have hcreate : (t.op input f).creates name = false := by
    rcases emulator_cases he with ⟨p, push, -, rfl⟩ | hcreate
    · exact absurd hid (Nat.ne_of_gt hlt)
    · exact hcreate
  obtain ⟨e₀, he₀, hid₀, -, -⟩ := emulator_of_apply hcreate he
  obtain ⟨r, hr, hrecord⟩ := h.held name record id hmem e₀ he₀ (hid₀ ▸ hid)
  rcases record_kept hr with ⟨r', hr', hsame⟩ | hforget | hzero
  · exact ⟨r', hr', hsame.trans hrecord⟩
  · exfalso
    rcases t.op_cases input f with ⟨hplain, -⟩ | ⟨n, rfl⟩ | ⟨n, k, sub, rfl⟩ | ⟨n, rfl⟩
    · rw [hforget] at hplain
      cases hplain
    · cases hforget
    · cases hforget
    · obtain rfl : n = name := Op.forget.inj hforget
      simp only [Thread.steady, he₀, Option.all_some, List.all_eq_true] at hsteady
      have hclosed := hsteady _ hmem
      simp [Thread.streams, ← hid, hid₀] at hclosed
  · exfalso
    have hcount : r.streams = (left ++ t :: right).countP _ := h.streams name r hr
    rw [hzero, eq_comm, List.countP_eq_zero] at hcount
    exact hcount _ hmem (by simp [Thread.counted, hrecord])

theorem Counted.step (h : Counted ⟨f, left ++ t :: right⟩) (hf : Recorded f)
    (hsteady : t.steady input ⟨f, left ++ t :: right⟩ = true) :
    Counted ⟨(t.op input f).apply f, left ++ t.after input f ++ right⟩ where
  streams name r hr := h.step_streams hsteady hr
  held name record id hmem e he hid := by
    rcases Program.mem_replaced hmem with hnew | hold
    · obtain ⟨rfl, hanswer, howner⟩ := opened_after hnew
      have he : f.emulator name = some e := he
      simp only [Thread.steady, he, hanswer, decide_false, Bool.false_or, Option.isNone_some, Option.any_eq_true,
        decide_eq_true_eq] at hsteady
      exact hsteady
    · exact h.step_held hsteady (Program.mem_kept hold) he hid
  records name r hr := by
    obtain ⟨hrecord, -, hfresh⟩ := lookup_cases hr
    rw [hrecord]
    cases hlook : f.subs.lookup name with
    | none => exact (hfresh hlook).symm ▸ Nat.lt_succ_self _
    | some r₀ => exact (h.records name r₀ hlook).trans_le records_le_apply
  asked t' hmem name record hcounted := by
    rcases Program.mem_replaced hmem with hnew | hold
    · rcases counted_after hnew hcounted with ⟨rfl, rfl⟩ | hold
      · cases hlook : f.subs.lookup name with
        | none => exact Nat.lt_succ_self _
        | some r => exact (h.records name r hlook).trans_le records_le_apply
      · exact (h.asked t (by simp) name record hold).trans_le records_le_apply
    · exact (h.asked t' (Program.mem_kept hold) name record hcounted).trans_le records_le_apply
  ids name record id hmem := by
    rcases Program.mem_replaced hmem with hnew | hold
    · obtain ⟨rfl, -, howner⟩ := opened_after hnew
      exact owner_lt hf howner
    · exact (h.ids name record id (Program.mem_kept hold)).trans_le ids_le_apply

theorem Counted.enter {s : World Name} (h : Counted s) (hbegins : t.begins = true) :
    Counted ⟨s.shared, t :: s.threads⟩ := by
  have hcounted : ∀ name record, t.counted name record = false := by
    intro name record
    cases t with
    | streamingPull n stage =>
      obtain rfl : stage = .request := of_decide_eq_true hbegins
      rfl
    | _ => rfl
  have hopened : ∀ name record id, t ≠ .streamingPull name (.opened record (some id)) := by
    rintro name record id rfl
    cases hbegins
  refine ⟨fun name r hr => ?_, fun name record id hmem => ?_, h.records, fun t' hmem => ?_, fun name record id hmem => ?_⟩
  · rw [List.countP_cons, hcounted]
    exact h.streams name r hr
  · rcases List.mem_cons.mp hmem with heq | hmem
    · exact absurd heq.symm (hopened name record id)
    · exact h.held name record id hmem
  · rcases List.mem_cons.mp hmem with rfl | hmem
    · intro name record hyes
      rw [hcounted] at hyes
      cases hyes
    · exact h.asked t' hmem
  · rcases List.mem_cons.mp hmem with heq | hmem
    · exact absurd heq.symm (hopened name record id)
    · exact h.ids name record id hmem

end CountSteps

section Runs

variable {wall : Int} {ms : List (Move (Thread Name) Input)}

theorem counted_started : Counted (started wall : World Name) := by
  refine ⟨?_, ?_, ?_, ?_, ?_⟩ <;> simp [started, Front.started]

theorem counted_of_run (hms : program.Along (fun m s => careful m s = true) ms (started wall)) :
    Counted (program.run ms (started wall : World Name)) := by
  have hboth : program.Along (fun m s => careful m s = true ∧ Recorded s.shared) ms (started wall) :=
    hms.with fun ns hns => (good_of_run hns).1
  refine Program.invariant ?_ ?_ hboth counted_started
  · intro s t hok h
    exact h.enter (Bool.and_eq_true_iff.mp hok.1).1
  · intro f i input left t right hok hget h
    obtain ⟨hcareful, hf⟩ := hok
    simp only [careful, hget, Option.all_some, Bool.and_eq_true] at hcareful
    exact h.step hf hcareful.1

theorem Counted.closed {s : World Name} (h : Counted s) {name : Name} {e : Sub} (he : s.shared.emulator name = some e)
    (hzero : ∀ r, s.shared.subs.lookup name = some r → r.streams = 0) : ∀ t ∈ s.threads, t.streams name e.id = false := by
  intro t hmem
  by_contra hopen
  cases t with
  | streamingPull n stage =>
    cases stage with
    | opened record sub =>
      simp only [Thread.streams, Bool.and_eq_false_imp, not_forall, decide_eq_true_eq, Bool.not_eq_false] at hopen
      obtain ⟨rfl, rfl⟩ := hopen
      obtain ⟨r, hr, hrecord⟩ := h.held n record e.id hmem e he rfl
      have hcount := h.streams n r hr
      rw [hzero r hr, eq_comm, List.countP_eq_zero] at hcount
      exact hcount _ hmem (by simp [Thread.counted, hrecord])
    | _ => exact hopen rfl
  | _ => exact hopen rfl

theorem sweep_deletes_expired (hms : program.Along (fun m s => careful m s = true) ms (started wall)) :
    Justified (program.run ms (started wall : World Name)) := by
  obtain ⟨hf, hgood⟩ := good_of_run hms
  refine ⟨fun c r hmem e he => ?_, fun c r hmem e he => ?_⟩
  · obtain ⟨hnow, hzero, hsub⟩ := hgood _ hmem
    obtain ⟨hactive, ttl, hexpiry, hover⟩ := hsub e he
    exact ⟨(counted_of_run hms).closed he hzero, ttl, hexpiry, by omega⟩
  · exact (hgood _ hmem).2 e he

def idleRun : List (Move (Thread Unit) Input) :=
  (.enter (.create () none false .upstream) :: List.replicate 3 (.step 0 ⟨.ok, 0⟩) : List (Move (Thread Unit) Input)) ++
    ([.enter (.pass (32 * 24 * 3600 * 10 ^ 9)), .step 0 ⟨.ok, 0⟩] : List (Move (Thread Unit) Input)) ++
    (.enter (.sweep .waiting) :: List.replicate 8 (.step 0 ⟨.ok, 0⟩) : List (Move (Thread Unit) Input))

theorem sweep_deletes_expired_of_idle :
    .sweep (.deleting ⟨(), 0⟩ ⟨32 * day, []⟩) ∈ (program.run idleRun (started 0)).threads ∧
      Justified (program.run idleRun (started 0)) :=
  ⟨by decide +kernel, sweep_deletes_expired (by decide +kernel)⟩

def lateRun : List (Move (Thread Unit) Input) := idleRun ++ [.enter (.pull () .request), .step 0 ⟨.ok, 0⟩]

theorem sweep_deletes_active : ¬ ∀ (wall : Int) (ms : List (Move (Thread Unit) Input)),
    program.Along (fun m s => begins m s = true) ms (started wall) → Justified (program.run ms (started wall)) := by
  intro hall
  have hjustified := hall 0 lateRun (by decide +kernel)
  have hmem : .sweep (.deleting ⟨(), 0⟩ ⟨32 * day, []⟩) ∈ (program.run lateRun (started 0)).threads := by
    decide +kernel
  have hsub : (program.run lateRun (started 0)).shared.emulator () = some ⟨0, 0, some ⟨defaultTTL⟩, false⟩ := by
    decide +kernel
  obtain ⟨ttl, hexpiry, hover⟩ := (hjustified.deletes _ _ hmem _ hsub).idle
  have hpolicy : Policy.expiry ((program.run lateRun (started 0)).shared.policyOf () (some ⟨defaultTTL⟩)) =
      some defaultTTL := by decide +kernel
  have hactive : (program.run lateRun (started 0)).shared.activity () = 32 * day := by decide +kernel
  have hnow : (program.run lateRun (started 0)).shared.now = 32 * day := by decide +kernel
  rw [hpolicy] at hexpiry
  obtain rfl := Option.some.inj hexpiry
  rw [hactive, hnow] at hover
  revert hover
  decide

end Runs

end CloudBurrow.PubSub
