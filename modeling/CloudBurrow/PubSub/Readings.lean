import CloudBurrow.PubSub.Front

namespace CloudBurrow.PubSub

open Threads

variable {Name : Type} [DecidableEq Name]

section Property

def Thread.streams (name : Name) (id : Nat) : Thread Name → Bool
  | .streamingPull n (.opened _ sub) => n = name && sub = some id
  | _ => false

structure Expired (s : World Name) (name : Name) (e : Sub) : Prop where
  closed : ∀ t ∈ s.threads, t.streams name e.id = false
  idle : ∃ ttl, Policy.expiry (s.shared.policyOf name e.policy) = some ttl ∧
    s.shared.activity name + ttl ≤ s.shared.now

structure Justified (s : World Name) : Prop where
  deletes : ∀ c r, .sweep (.deleting c r) ∈ s.threads → ∀ e, s.shared.emulator c.name = some e →
    Expired s c.name e
  drops : ∀ c r, .sweep (.dropping c r) ∈ s.threads → ∀ e, s.shared.emulator c.name = some e →
    (∀ k, s.shared.policies c.name = some k → k.owner ≠ some e.id) ∧
      ∀ k, s.shared.labels c.name = some k → k.owner ≠ some e.id

end Property

section Conditions

def Thread.begins : Thread Name → Bool
  | .pull _ stage => stage = .request
  | .create _ _ _ stage => stage = .upstream
  -- the REST handler sends a DELETE on without a touch
  | .delete _ stage => stage ≠ .done
  | .update _ _ _ _ stage => stage = .request
  | .streamingPull _ stage => stage = .request
  | .advance d => 0 ≤ d
  | .sweep stage => stage = .waiting
  | _ => true

def begins : Move (Thread Name) Input → World Name → Bool
  | .enter t, _ => t.begins
  | .step _ _, _ => true

def Thread.short : Thread Name → Bool
  | .create _ p _ _ => (updatedPolicy p).ttl ≤ maxDuration
  | .update _ p _ _ _ => p.all fun p => (updatedPolicy p).ttl ≤ maxDuration
  | _ => true

namespace Op

variable (name : Name)

def creates : Op Name → Bool
  | .create n _ _ => n = name
  | _ => false

def setsPolicy : Op Name → Bool
  | .setPolicy n _ => n = name
  | _ => false

def setsLabels : Op Name → Bool
  | .setLabels n _ => n = name
  | _ => false

def drops : Op Name → Bool
  | .forget n | .dropKept n => n = name
  | _ => false

def marks : Op Name → Bool
  | .touch n | .openStream n | .closeStream n => n = name
  | _ => false

end Op

def Front.untouched (f : Front Name) (c : Candidate Name) : Bool := (f.subs.lookup c.name).any fun s => s.last = c.last

def SweepStage.disturbed (f : Front Name) (op : Op Name) : SweepStage Name → Bool
  | .keeping c _ _ => f.untouched c && op.creates c.name
  | .judging c _ _ _ | .checking c _ => f.untouched c && (op.creates c.name || op.setsPolicy c.name || op.drops c.name)
  | .deleting c _ => op.creates c.name || op.setsPolicy c.name || op.drops c.name || op.marks c.name
  | .dropping c _ => op.setsPolicy c.name || op.setsLabels c.name
  | _ => false

def Thread.disturbed (f : Front Name) (op : Op Name) : Thread Name → Bool
  | .sweep stage => stage.disturbed f op
  | _ => false

def Thread.steady (input : Input) (s : World Name) : Thread Name → Bool
  | .advance d => s.shared.offset + d ≤ maxDuration
  | .sweep (.reading c _) =>
    !s.shared.untouched c || (s.shared.emulator c.name).all fun e => e.created ≤ c.last
  | .delete name .done => (s.shared.emulator name).all fun e => s.threads.all fun t => !t.streams name e.id
  | .streamingPull name (.upstream record) =>
    input.answer = .refused || (s.shared.emulator name).isNone ||
      (s.shared.subs.lookup name).any fun r => r.record = record
  | .streamingPull name (.opened record _) =>
    (s.shared.subs.lookup name).all fun r => r.record = record || r.streams = 0
  | _ => true

def careful : Move (Thread Name) Input → World Name → Bool
  | .enter t, _ => t.begins && t.short
  | .step i input, s =>
    s.threads[i]?.all fun t =>
      t.steady input s && s.threads.all fun t' => !t'.disturbed s.shared (t.op input s.shared)

end Conditions

section Frames

variable {f : Front Name} {op : Op Name} {name : Name}

@[simp] theorem Front.lookup_mark (f : Front Name) (n name : Name) (g : Nat → Nat) :
    (f.mark n g).subs.lookup name =
      if name = n then some ⟨f.now, g ((f.subs.lookup n).getD ⟨0, 0, f.records⟩).streams,
        ((f.subs.lookup n).getD ⟨0, 0, f.records⟩).record⟩
      else f.subs.lookup name := by
  split_ifs with h
  · subst h
    exact AList.lookup_insert _
  · exact AList.lookup_insert_ne h

theorem lookup_erase (f : Front Name) (n name : Name) :
    (f.subs.erase n).lookup name = if name = n then none else f.subs.lookup name := by
  split_ifs with h
  · subst h
    exact AList.lookup_erase _ _
  · exact AList.lookup_erase_ne h

theorem lookup_of_apply {s : SubState} (h : (op.apply f).subs.lookup name = some s) :
    (op.marks name = true ∧ s.last = f.now) ∨ (op.marks name = false ∧ f.subs.lookup name = some s) := by
  cases op with
  | touch n | openStream n | closeStream n =>
    simp only [Op.apply, Front.touch, Front.openStream, Front.closeStream, Front.lookup_mark] at h
    split_ifs at h with heq
    · subst heq
      cases h
      simp [Op.marks]
    · exact .inr ⟨decide_eq_false fun h => heq h.symm, h⟩
  | forget n =>
    simp only [Op.apply, Front.forget, Front.dropKept, lookup_erase] at h
    split_ifs at h
    exact .inr ⟨rfl, h⟩
  | forgetIfIdleSince n last =>
    simp only [Op.apply, Front.forgetIfIdleSince] at h
    split_ifs at h
    · simp only [lookup_erase] at h
      split_ifs at h
      exact .inr ⟨rfl, h⟩
    · exact .inr ⟨rfl, h⟩
  | _ => exact .inr ⟨rfl, h⟩

theorem update_cases {B : Type} {g : Name → Option B} {n : Name} {v : Option B} {b : B}
    (h : Function.update g n v name = some b) : (n = name ∧ v = some b) ∨ (n ≠ name ∧ g name = some b) := by
  by_cases heq : n = name
  · subst heq
    exact .inl ⟨rfl, (Function.update_self n v g).symm.trans h⟩
  · exact .inr ⟨heq, (Function.update_of_ne (Ne.symm heq) v g).symm.trans h⟩

theorem emulator_of_apply {e : Sub} (hnot : op.creates name = false) (h : (op.apply f).emulator name = some e) :
    ∃ e₀, f.emulator name = some e₀ ∧ e.id = e₀.id ∧ e.created = e₀.created ∧ e.policy = e₀.policy := by
  cases op with
  | create n p push =>
    rcases update_cases h with ⟨rfl, -⟩ | ⟨-, h⟩
    · simp [Op.creates] at hnot
    · exact ⟨e, h, rfl, rfl, rfl⟩
  | remove n =>
    rcases update_cases h with ⟨-, hnone⟩ | ⟨-, h⟩
    · cases hnone
    · exact ⟨e, h, rfl, rfl, rfl⟩
  | setPush n push =>
    rcases update_cases h with ⟨rfl, hpush⟩ | ⟨-, h⟩
    · obtain ⟨e₀, he₀, rfl⟩ := Option.map_eq_some_iff.mp hpush
      exact ⟨e₀, he₀, rfl, rfl, rfl⟩
    · exact ⟨e, h, rfl, rfl, rfl⟩
  | forgetIfIdleSince n last =>
    simp only [Op.apply, Front.forgetIfIdleSince] at h
    split_ifs at h <;> exact ⟨e, h, rfl, rfl, rfl⟩
  | _ => exact ⟨e, h, rfl, rfl, rfl⟩

theorem emulator_cases {e : Sub} (h : (op.apply f).emulator name = some e) :
    (∃ p push, op = .create name p push ∧ e = ⟨f.ids, f.now, p, push⟩) ∨ op.creates name = false := by
  cases op with
  | create n p push =>
    rcases update_cases h with ⟨rfl, hnew⟩ | ⟨hne, -⟩
    · exact .inl ⟨p, push, rfl, (Option.some.inj hnew).symm⟩
    · exact .inr (decide_eq_false hne)
  | _ => exact .inr rfl

theorem policies_apply (hset : op.setsPolicy name = false) (hdrop : op.drops name = false) :
    (op.apply f).policies name = f.policies name := by
  cases op with
  | setPolicy n p =>
    have hne : name ≠ n := fun heq => by simp [Op.setsPolicy, heq] at hset
    exact Function.update_of_ne hne _ _
  | forget n | dropKept n =>
    have hne : name ≠ n := fun heq => by simp [Op.drops, heq] at hdrop
    exact Function.update_of_ne hne _ _
  | forgetIfIdleSince n last =>
    simp only [Op.apply, Front.forgetIfIdleSince]
    split_ifs <;> rfl
  | _ => rfl

theorem policyOf_apply (hset : op.setsPolicy name = false) (hdrop : op.drops name = false) (p : Option Policy) :
    (op.apply f).policyOf name p = f.policyOf name p := by
  simp only [Front.policyOf, policies_apply hset hdrop]

theorem policies_of_apply {k : Kept Policy} (h : (op.apply f).policies name = some k) :
    (op = .setPolicy name k.value ∧ k.owner = f.owner name) ∨ f.policies name = some k := by
  cases op with
  | setPolicy n p =>
    rcases update_cases h with ⟨rfl, hset⟩ | ⟨-, h⟩
    · cases hset
      exact .inl ⟨rfl, rfl⟩
    · exact .inr h
  | forget n | dropKept n =>
    rcases update_cases h with ⟨-, hnone⟩ | ⟨-, h⟩
    · cases hnone
    · exact .inr h
  | forgetIfIdleSince n last =>
    simp only [Op.apply, Front.forgetIfIdleSince] at h
    split_ifs at h <;> exact .inr h
  | _ => exact .inr h

theorem labels_of_apply {k : Kept Labels} (h : (op.apply f).labels name = some k) :
    (op = .setLabels name k.value ∧ k.owner = f.owner name) ∨ f.labels name = some k := by
  cases op with
  | setLabels n l =>
    rcases update_cases h with ⟨rfl, hset⟩ | ⟨-, h⟩
    · cases hset
      exact .inl ⟨rfl, rfl⟩
    · exact .inr h
  | forget n | dropKept n =>
    rcases update_cases h with ⟨-, hnone⟩ | ⟨-, h⟩
    · cases hnone
    · exact .inr h
  | forgetIfIdleSince n last =>
    simp only [Op.apply, Front.forgetIfIdleSince] at h
    split_ifs at h <;> exact .inr h
  | _ => exact .inr h

theorem activity_apply (hmark : op.marks name = false) (hcreate : op.creates name = false) :
    (op.apply f).activity name = f.activity name := by
  cases op with
  | touch n | openStream n | closeStream n =>
    have hne : name ≠ n := fun heq => by simp [Op.marks, heq] at hmark
    exact Function.update_of_ne hne _ _
  | create n p push =>
    have hne : name ≠ n := fun heq => by simp [Op.creates, heq] at hcreate
    exact Function.update_of_ne hne _ _
  | forgetIfIdleSince n last =>
    simp only [Op.apply, Front.forgetIfIdleSince]
    split_ifs <;> rfl
  | _ => rfl

theorem activity_marked (h : op.marks name = true) : (op.apply f).activity name = f.now := by
  cases op with
  | touch n | openStream n | closeStream n =>
    obtain rfl : n = name := of_decide_eq_true h
    exact Function.update_self _ _ _
  | _ => cases h

def Bounded (p : Option Policy) : Prop := ∀ q, p = some q → q.ttl ≤ maxDuration

def Op.Allowed (f : Front Name) : Op Name → Prop
  | .advance d => 0 ≤ d ∧ f.offset + d ≤ maxDuration
  | .setPolicy _ p => p.ttl ≤ maxDuration
  | .create _ p _ => Bounded p
  | _ => True

omit [DecidableEq Name] in
theorem offset_advance {d : Int} (hoffset : 0 ≤ f.offset) (hd : 0 ≤ d) (hmax : f.offset + d ≤ maxDuration) :
    (f.advance d).offset = f.offset + d := by
  simp only [maxDuration] at hmax
  exact Int.bmod_eq_of_le (by omega) (by omega)

theorem now_le_apply (hoffset : 0 ≤ f.offset) (hop : op.Allowed f) : f.now ≤ (op.apply f).now := by
  cases op with
  | pass d => simp only [Op.apply, Front.now]; omega
  | advance d =>
    obtain ⟨hd, hmax⟩ := hop
    simp only [Op.apply, Front.now, offset_advance hoffset hd hmax]
    simp only [Front.advance]
    omega
  | forgetIfIdleSince n last =>
    simp only [Op.apply, Front.forgetIfIdleSince]
    split_ifs <;> exact le_refl _
  | _ => exact le_refl _

end Frames

section Readings

structure Recorded (f : Front Name) : Prop where
  offset : 0 ≤ f.offset
  active : ∀ name s e, f.subs.lookup name = some s → f.emulator name = some e → f.activity name ≤ max s.last e.created
  kept : ∀ name k, f.policies name = some k → k.value.ttl ≤ maxDuration
  given : ∀ name e, f.emulator name = some e → Bounded e.policy
  ids : ∀ name e, f.emulator name = some e → e.id < f.ids
  policyOwner : ∀ name k i, f.policies name = some k → k.owner = some i → i < f.ids
  labelsOwner : ∀ name k i, f.labels name = some k → k.owner = some i → i < f.ids

structure Watched (f : Front Name) (c : Candidate Name) (r : Round Name) : Prop where
  now_le : r.now ≤ f.now
  due : c.last + minTTL ≤ r.now

def Unchanged (f : Front Name) (c : Candidate Name) (Q : Sub → Prop) : Prop :=
  f.untouched c = true → ∀ e, f.emulator c.name = some e → e.created ≤ c.last ∧ Q e

def Lapsed (c : Candidate Name) (r : Round Name) (p : Option Policy) : Prop :=
  ∃ ttl, Policy.expiry p = some ttl ∧ c.last + ttl ≤ r.now

def Foreign (f : Front Name) (name : Name) (e : Sub) : Prop :=
  (∀ k, f.policies name = some k → k.owner ≠ some e.id) ∧ ∀ k, f.labels name = some k → k.owner ≠ some e.id

def SweepStage.Good (f : Front Name) : SweepStage Name → Prop
  | .next r | .forgetting _ r => r.now ≤ f.now
  | .reading c r => Watched f c r
  | .keeping c sub r => Watched f c r ∧ Unchanged f c fun e => e.policy = sub.policy
  | .judging c p _ r => Watched f c r ∧ Unchanged f c fun e => f.policyOf c.name e.policy = p
  | .checking c r => Watched f c r ∧ Unchanged f c fun e => Lapsed c r (f.policyOf c.name e.policy)
  | .deleting c r => r.now ≤ f.now ∧ (∀ s, f.subs.lookup c.name = some s → s.streams = 0) ∧
      ∀ e, f.emulator c.name = some e → f.activity c.name ≤ c.last ∧ Lapsed c r (f.policyOf c.name e.policy)
  | .dropping c r => r.now ≤ f.now ∧ ∀ e, f.emulator c.name = some e → Foreign f c.name e
  | _ => True

def Thread.Good (f : Front Name) : Thread Name → Prop
  | .create _ p _ _ => (updatedPolicy p).ttl ≤ maxDuration
  | .update _ p _ _ _ => ∀ q, p = some q → (updatedPolicy q).ttl ≤ maxDuration
  | .advance d => 0 ≤ d
  | .sweep stage => stage.Good f
  | _ => True

variable {f : Front Name} {op : Op Name} {c : Candidate Name} {r : Round Name}

theorem ids_le_apply : f.ids ≤ (op.apply f).ids := by
  cases op with
  | create n p push => exact Nat.le_succ _
  | forgetIfIdleSince n last =>
    simp only [Op.apply, Front.forgetIfIdleSince]
    split_ifs <;> exact le_refl _
  | _ => exact le_refl _

theorem offset_apply (hoffset : 0 ≤ f.offset) (hop : op.Allowed f) : 0 ≤ (op.apply f).offset := by
  cases op with
  | advance d =>
    obtain ⟨hd, hmax⟩ := hop
    simp only [Op.apply, offset_advance hoffset hd hmax]
    omega
  | forgetIfIdleSince n last =>
    simp only [Op.apply, Front.forgetIfIdleSince]
    split_ifs <;> exact hoffset
  | _ => exact hoffset

theorem owner_lt (hf : Recorded f) {name : Name} {i : Nat} (h : f.owner name = some i) : i < f.ids := by
  obtain ⟨e, he, rfl⟩ := Option.map_eq_some_iff.mp h
  exact hf.ids name e he

theorem Recorded.apply (hf : Recorded f) (hop : op.Allowed f) : Recorded (op.apply f) where
  offset := offset_apply hf.offset hop
  active name s e hs he := by
    rcases lookup_of_apply hs with ⟨hmark, hlast⟩ | ⟨hmark, hold⟩
    · rw [activity_marked hmark, hlast]
      exact le_max_left _ _
    · rcases emulator_cases he with ⟨p, push, rfl, rfl⟩ | hcreate
      · exact (Function.update_self _ _ _).trans_le (le_max_right _ _)
      · obtain ⟨e₀, he₀, -, hcreated, -⟩ := emulator_of_apply hcreate he
        rw [activity_apply hmark hcreate, hcreated]
        exact hf.active name s e₀ hold he₀
  kept name k hk := by
    rcases policies_of_apply hk with ⟨rfl, -⟩ | hkept
    · exact hop
    · exact hf.kept name k hkept
  given name e he := by
    rcases emulator_cases he with ⟨p, push, rfl, rfl⟩ | hcreate
    · exact hop
    · obtain ⟨e₀, he₀, -, -, hpolicy⟩ := emulator_of_apply hcreate he
      rw [hpolicy]
      exact hf.given name e₀ he₀
  ids name e he := by
    rcases emulator_cases he with ⟨p, push, rfl, rfl⟩ | hcreate
    · exact Nat.lt_succ_self _
    · obtain ⟨e₀, he₀, hid, -, -⟩ := emulator_of_apply hcreate he
      rw [hid]
      exact (hf.ids name e₀ he₀).trans_le ids_le_apply
  policyOwner name k i hk howner := by
    rcases policies_of_apply hk with ⟨-, heq⟩ | hkept
    · exact (owner_lt hf (heq ▸ howner)).trans_le ids_le_apply
    · exact (hf.policyOwner name k i hkept howner).trans_le ids_le_apply
  labelsOwner name k i hk howner := by
    rcases labels_of_apply hk with ⟨-, heq⟩ | hkept
    · exact (owner_lt hf (heq ▸ howner)).trans_le ids_le_apply
    · exact (hf.labelsOwner name k i hkept howner).trans_le ids_le_apply

theorem Watched.apply (h : Watched f c r) (hnow : f.now ≤ (op.apply f).now) : Watched (op.apply f) c r :=
  ⟨h.now_le.trans hnow, h.due⟩

theorem untouched_iff : f.untouched c = true ↔ ∃ s, f.subs.lookup c.name = some s ∧ s.last = c.last := by
  simp [Front.untouched, Option.any_eq_true]

theorem untouched_of_apply (h : Watched f c r) (ht : (op.apply f).untouched c = true) : f.untouched c = true := by
  obtain ⟨s, hs, hlast⟩ := untouched_iff.mp ht
  rcases lookup_of_apply hs with ⟨-, hnow⟩ | ⟨-, hold⟩
  · have hdue := h.due
    have hle := h.now_le
    simp only [minTTL, day] at hdue
    omega
  · exact untouched_iff.mpr ⟨s, hold, hlast⟩

theorem Unchanged.apply {Q Q' : Sub → Prop} (hw : Watched f c r) (h : Unchanged f c Q)
    (hcreate : f.untouched c = true → op.creates c.name = false)
    (hQ : f.untouched c = true → ∀ e e₀, e.policy = e₀.policy → Q e₀ → Q' e) : Unchanged (op.apply f) c Q' := by
  intro ht e he
  have hold := untouched_of_apply hw ht
  obtain ⟨e₀, he₀, -, hcreated, hpolicy⟩ := emulator_of_apply (hcreate hold) he
  obtain ⟨hle, hq⟩ := h hold e₀ he₀
  exact ⟨hcreated ▸ hle, hQ hold e e₀ hpolicy hq⟩

theorem policyOf_of_undisturbed {e e₀ : Sub} (hset : op.setsPolicy c.name = false) (hdrop : op.drops c.name = false)
    (hpolicy : e.policy = e₀.policy) : (op.apply f).policyOf c.name e.policy = f.policyOf c.name e₀.policy := by
  rw [policyOf_apply hset hdrop, hpolicy]

theorem Unchanged.judged {Q : Option Policy → Prop} (hw : Watched f c r)
    (h : Unchanged f c fun e => Q (f.policyOf c.name e.policy))
    (hnot : (f.untouched c && (op.creates c.name || op.setsPolicy c.name || op.drops c.name)) = false) :
    Unchanged (op.apply f) c fun e => Q ((op.apply f).policyOf c.name e.policy) := by
  have hquiet : f.untouched c = true →
      (op.creates c.name = false ∧ op.setsPolicy c.name = false) ∧ op.drops c.name = false := fun ht => by
    simpa [ht] using hnot
  refine h.apply hw (fun ht => (hquiet ht).1.1) fun ht e e₀ hpolicy hq => ?_
  rw [policyOf_of_undisturbed (hquiet ht).1.2 (hquiet ht).2 hpolicy]
  exact hq

theorem foreign_apply (hf : Recorded f) (hold : ∀ e, f.emulator c.name = some e → Foreign f c.name e)
    (hpolicy : op.setsPolicy c.name = false) (hlabels : op.setsLabels c.name = false) {e : Sub}
    (he : (op.apply f).emulator c.name = some e) : Foreign (op.apply f) c.name e := by
  -- what is kept after the step was kept before it, on the same subscription or before its creation
  have hid : (∃ e₀, f.emulator c.name = some e₀ ∧ e.id = e₀.id) ∨ e.id = f.ids := by
    rcases emulator_cases he with ⟨p, push, -, rfl⟩ | hcreate
    · exact .inr rfl
    · obtain ⟨e₀, he₀, hid, -, -⟩ := emulator_of_apply hcreate he
      exact .inl ⟨e₀, he₀, hid⟩
  constructor
  · intro k hk howner
    rcases policies_of_apply hk with ⟨rfl, -⟩ | hkept
    · simp [Op.setsPolicy] at hpolicy
    · rcases hid with ⟨e₀, he₀, hid⟩ | hid
      · exact (hold e₀ he₀).1 k hkept (hid ▸ howner)
      · exact absurd (hf.policyOwner _ k _ hkept howner) (by omega)
  · intro k hk howner
    rcases labels_of_apply hk with ⟨rfl, -⟩ | hkept
    · simp [Op.setsLabels] at hlabels
    · rcases hid with ⟨e₀, he₀, hid⟩ | hid
      · exact (hold e₀ he₀).2 k hkept (hid ▸ howner)
      · exact absurd (hf.labelsOwner _ k _ hkept howner) (by omega)

theorem SweepStage.Good.apply {stage : SweepStage Name} (h : stage.Good f) (hf : Recorded f)
    (hnow : f.now ≤ (op.apply f).now) (hnot : stage.disturbed f op = false) : stage.Good (op.apply f) := by
  cases stage with
  | waiting | listing | timing idle => trivial
  | next r | forgetting c r => exact le_trans h hnow
  | reading c r => exact Watched.apply h hnow
  | keeping c sub r =>
    refine ⟨h.1.apply hnow, h.2.apply h.1 (fun ht => ?_) fun _ e e₀ hpolicy hq => hpolicy.trans hq⟩
    simpa [disturbed, ht] using hnot
  | judging c p push r => exact ⟨h.1.apply hnow, h.2.judged (Q := fun q => q = p) h.1 hnot⟩
  | checking c r => exact ⟨h.1.apply hnow, h.2.judged (Q := Lapsed c r) h.1 hnot⟩
  | deleting c r =>
    obtain ⟨hle, hstreams, hsub⟩ := h
    obtain ⟨⟨⟨hcreate, hset⟩, hdrop⟩, hmark⟩ :
        ((op.creates c.name = false ∧ op.setsPolicy c.name = false) ∧ op.drops c.name = false) ∧
          op.marks c.name = false := by simpa [disturbed] using hnot
    refine ⟨hle.trans hnow, fun s hs => ?_, fun e he => ?_⟩
    · rcases lookup_of_apply hs with ⟨hmarks, -⟩ | ⟨-, hold⟩
      · rw [hmark] at hmarks
        cases hmarks
      · exact hstreams s hold
    · obtain ⟨e₀, he₀, -, -, hpolicy⟩ := emulator_of_apply hcreate he
      rw [activity_apply hmark hcreate, policyOf_of_undisturbed hset hdrop hpolicy]
      exact hsub e₀ he₀
  | dropping c r =>
    obtain ⟨hset, hlabels⟩ : op.setsPolicy c.name = false ∧ op.setsLabels c.name = false := by
      simpa [disturbed] using hnot
    exact ⟨h.1.trans hnow, fun e he => foreign_apply hf h.2 hset hlabels he⟩

theorem Thread.Good.apply {t : Thread Name} (h : t.Good f) (hf : Recorded f)
    (hnow : f.now ≤ (op.apply f).now) (hnot : t.disturbed f op = false) : t.Good (op.apply f) := by
  cases t with
  | sweep stage => exact SweepStage.Good.apply h hf hnow hnot
  | _ => exact h

end Readings

section Steps

variable {f : Front Name} {c : Candidate Name} {r r' : Round Name} {input : Input}

theorem le_of_le_saturate {ttl d : Int} (hpos : 0 < ttl) (h : ttl ≤ saturate d) : ttl ≤ d := by
  simp only [saturate, maxDuration] at h
  omega

theorem expiry_of_subscriptionTTL {p : Option Policy} {ttl : Int} (hp : Bounded p) (h : subscriptionTTL p = some ttl) :
    0 < ttl ∧ Policy.expiry p = some ttl := by
  cases p with
  | none =>
    simp only [subscriptionTTL, Option.some.injEq] at h
    subst h
    exact ⟨by decide, rfl⟩
  | some q =>
    have hq := hp q rfl
    simp only [subscriptionTTL] at h
    split_ifs at h with hpos
    obtain rfl := Option.some.inj h
    have heq : saturate q.ttl = q.ttl := by
      simp only [saturate, maxDuration] at hpos hq ⊢
      omega
    rw [heq] at hpos ⊢
    exact ⟨hpos, if_pos hpos⟩

theorem Recorded.bounded (hf : Recorded f) {name : Name} {e : Sub} (he : f.emulator name = some e) :
    Bounded (f.policyOf name e.policy) := by
  intro q hq
  simp only [Front.policyOf] at hq
  split at hq
  · rename_i k hk
    obtain rfl := Option.some.inj hq
    exact hf.kept name k hk
  · exact hf.given name e he q hq

omit [DecidableEq Name] in
theorem now_of_take (h : r.take input = some (c, r')) : r'.now = r.now := by
  obtain ⟨c', -, heq⟩ := Option.map_eq_some_iff.mp h
  rw [← (Prod.mk.inj heq).2]

theorem idleSince_iff {name : Name} {last : Int} :
    f.idleSince name last = true ↔ ∃ s, f.subs.lookup name = some s ∧ s.streams = 0 ∧ s.last = last := by
  simp [Front.idleSince, Option.any_eq_true]

theorem Unchanged.lapsed {p : Option Policy} {ttl : Int} (hf : Recorded f)
    (h : Unchanged f c fun e => f.policyOf c.name e.policy = p) (hp : subscriptionTTL p = some ttl)
    (hdue : ttl ≤ saturate (r.now - c.last)) : Unchanged f c fun e => Lapsed c r (f.policyOf c.name e.policy) := by
  intro ht e he
  obtain ⟨hle, hread⟩ := h ht e he
  have hbounded := hf.bounded he
  rw [hread] at hbounded
  obtain ⟨hpos, hexpiry⟩ := expiry_of_subscriptionTTL hbounded hp
  have hover := le_of_le_saturate hpos hdue
  exact ⟨hle, ttl, hread ▸ hexpiry, by omega⟩

theorem Unchanged.deleting (hf : Recorded f) (h : Unchanged f c fun e => Lapsed c r (f.policyOf c.name e.policy))
    (hw : Watched f c r) (hidle : f.idleSince c.name c.last = true) : (SweepStage.deleting c r).Good f := by
  obtain ⟨s, hs, hstreams, hlast⟩ := idleSince_iff.mp hidle
  refine ⟨hw.now_le, fun s' hs' => ?_, fun e he => ?_⟩
  · rw [hs] at hs'
    obtain rfl := Option.some.inj hs'
    exact hstreams
  · obtain ⟨hle, hlapsed⟩ := h (untouched_iff.mpr ⟨s, hs, hlast⟩) e he
    have hactive := hf.active c.name s e hs he
    exact ⟨by omega, hlapsed⟩

theorem SweepStage.Good.after {stage stage' : SweepStage Name} {ts : List (Thread Name)} (h : stage.Good f)
    (hf : Recorded f) (hsteady : (Thread.sweep stage).steady input ⟨f, ts⟩ = true)
    (hnow : f.now ≤ ((stage.op input f).apply f).now) (hmem : stage' ∈ stage.after input f) :
    stage'.Good ((stage.op input f).apply f) := by
  cases stage with
  | waiting =>
    obtain rfl := List.mem_singleton.mp hmem
    split_ifs <;> trivial
  | listing =>
    obtain rfl := List.mem_singleton.mp hmem
    trivial
  | timing idle =>
    obtain rfl := List.mem_singleton.mp hmem
    exact le_refl f.now
  | next r =>
    simp only [SweepStage.after] at hmem
    split at hmem
    · cases hmem
    · rename_i c r' htake
      have hr := now_of_take htake
      obtain rfl := List.mem_singleton.mp hmem
      have hle : r'.now ≤ f.now := hr ▸ h
      split_ifs with hyoung
      · exact hle.trans hnow
      · have hdue := le_of_le_saturate (by decide) (not_lt.mp hyoung)
        exact ⟨hle.trans hnow, by omega⟩
  | reading c r =>
    simp only [SweepStage.after] at hmem
    split_ifs at hmem with hok
    · split at hmem
      · obtain rfl := List.mem_singleton.mp hmem
        exact h.now_le
      · rename_i sub hsub
        obtain rfl := List.mem_singleton.mp hmem
        refine ⟨h, fun ht e he => ?_⟩
        have ht : f.untouched c = true := ht
        have he : f.emulator c.name = some e := he
        rw [hsub] at he
        obtain rfl := Option.some.inj he
        simp only [Thread.steady, ht, hsub, Bool.not_true, Bool.false_or, Option.all_some, decide_eq_true_eq] at hsteady
        exact ⟨hsteady, rfl⟩
    · obtain rfl := List.mem_singleton.mp hmem
      exact h.now_le
  | keeping c sub r =>
    obtain rfl := List.mem_singleton.mp hmem
    refine ⟨h.1, fun ht e he => ?_⟩
    obtain ⟨hle, hpolicy⟩ := h.2 ht e he
    exact ⟨hle, congrArg _ hpolicy⟩
  | judging c p push r =>
    simp only [SweepStage.after] at hmem
    split at hmem
    · obtain rfl := List.mem_singleton.mp hmem
      exact h.1.now_le
    · rename_i ttl hp
      obtain rfl := List.mem_singleton.mp hmem
      split_ifs with hskip
      · exact h.1.now_le
      · simp only [Bool.or_eq_true, decide_eq_true_eq, not_or, not_lt] at hskip
        exact ⟨h.1, h.2.lapsed hf hp hskip.2⟩
  | checking c r =>
    obtain rfl := List.mem_singleton.mp hmem
    split_ifs with hidle
    · exact h.2.deleting hf h.1 hidle
    · exact h.1.now_le
  | deleting c r =>
    obtain rfl := List.mem_singleton.mp hmem
    split_ifs with hok
    · refine ⟨h.1.trans hnow, fun e he => ?_⟩
      simp [SweepStage.op, hok, Op.apply, Front.remove] at he
    · exact h.1.trans hnow
  | dropping c r =>
    obtain rfl := List.mem_singleton.mp hmem
    exact h.1.trans hnow
  | forgetting c r =>
    obtain rfl := List.mem_singleton.mp hmem
    exact le_trans h hnow

theorem Thread.Good.after {t t' : Thread Name} {ts : List (Thread Name)} (h : t.Good f) (hf : Recorded f)
    (hsteady : t.steady input ⟨f, ts⟩ = true) (hnow : f.now ≤ ((t.op input f).apply f).now)
    (hmem : t' ∈ t.after input f) : t'.Good ((t.op input f).apply f) := by
  cases t with
  | pull name stage | delete name stage | streamingPull name stage =>
    cases stage <;> simp only [Thread.after] at hmem <;> (try split_ifs at hmem) <;> simp at hmem <;> subst hmem <;> trivial
  | create name p push stage =>
    cases stage <;> simp only [Thread.after] at hmem <;> (try split_ifs at hmem) <;> simp at hmem <;> subst hmem <;> exact h
  | update name p labels push stage =>
    cases stage <;> simp only [Thread.after] at hmem <;> simp at hmem <;> subst hmem <;> exact h
  | advance d =>
    obtain rfl := List.mem_singleton.mp hmem
    trivial
  | sweep stage =>
    obtain ⟨stage', hstage, rfl⟩ := List.mem_map.mp hmem
    exact SweepStage.Good.after h hf hsteady hnow hstage
  | relayed name | pass d | relay on => cases hmem

def Op.plain : Op Name → Bool
  | .openStream _ | .closeStream _ | .forget _ => false
  | _ => true

structure Thread.Quiet (input : Input) (f : Front Name) (t : Thread Name) : Prop where
  plain : (t.op input f).plain = true
  allowed : ∀ ts, t.Good f → t.steady input ⟨f, ts⟩ = true → (t.op input f).Allowed f

theorem Thread.quiet_of {t : Thread Name} (h : (t.op input f).plain = true ∧ (t.op input f).Allowed f) :
    t.Quiet input f := ⟨h.1, fun _ _ _ => h.2⟩

omit [DecidableEq Name] in
theorem doneOp_quiet (name : Name) : (doneOp input name).plain = true ∧ (doneOp input name).Allowed f := by
  unfold doneOp
  split_ifs <;> exact ⟨rfl, trivial⟩

omit [DecidableEq Name] in
theorem SweepStage.op_quiet (stage : SweepStage Name) :
    (stage.op input f).plain = true ∧ (stage.op input f).Allowed f := by
  cases stage with
  | waiting | next r | deleting c r =>
    simp only [SweepStage.op]
    split_ifs <;> exact ⟨rfl, trivial⟩
  | _ => exact ⟨rfl, trivial⟩

theorem Thread.op_cases (input : Input) (f : Front Name) (t : Thread Name) :
    t.Quiet input f ∨ (∃ name, t = .streamingPull name .request) ∨
      (∃ name record sub, t = .streamingPull name (.opened record sub)) ∨ ∃ name, t = .delete name .done := by
  cases t with
  | pull name stage =>
    cases stage with
    | request => exact .inl (quiet_of ⟨rfl, trivial⟩)
    | done => exact .inl (quiet_of (doneOp_quiet name))
  | create name p push stage =>
    cases stage with
    | upstream =>
      refine .inl ⟨?_, fun ts h _ => ?_⟩ <;> simp only [Thread.op] <;> split_ifs
      · rfl
      · rfl
      · trivial
      · exact fun q hq => Option.some.inj hq ▸ h
    | response => exact .inl (quiet_of ⟨rfl, trivial⟩)
    | done => exact .inl (quiet_of (doneOp_quiet name))
  | delete name stage =>
    cases stage with
    | request => exact .inl (quiet_of ⟨rfl, trivial⟩)
    | upstream => exact .inl (by constructor <;> simp only [Thread.op] <;> split_ifs <;> intros <;> trivial)
    | done => exact .inr (.inr (.inr ⟨name, rfl⟩))
  | update name p labels push stage =>
    cases stage with
    | request => exact .inl (quiet_of ⟨rfl, trivial⟩)
    | upstream =>
      exact .inl (by constructor <;> simp only [Thread.op] <;> split_ifs <;> cases push <;> intros <;> trivial)
    | policy =>
      cases p with
      | none => exact .inl (quiet_of ⟨rfl, trivial⟩)
      | some q => exact .inl ⟨rfl, fun _ h _ => h q rfl⟩
    | labels => cases labels <;> exact .inl (quiet_of ⟨rfl, trivial⟩)
    | done => exact .inl (quiet_of (doneOp_quiet name))
  | streamingPull name stage =>
    cases stage with
    | request => exact .inr (.inl ⟨name, rfl⟩)
    | upstream record => exact .inl (quiet_of ⟨rfl, trivial⟩)
    | opened record sub => exact .inr (.inr (.inl ⟨name, record, sub, rfl⟩))
  | advance d => exact .inl ⟨rfl, fun _ h hsteady => ⟨h, of_decide_eq_true hsteady⟩⟩
  | sweep stage => exact .inl (quiet_of stage.op_quiet)
  | relayed name | pass d | relay on => exact .inl (quiet_of ⟨rfl, trivial⟩)

theorem Thread.Good.op_allowed {t : Thread Name} {ts : List (Thread Name)} (h : t.Good f)
    (hsteady : t.steady input ⟨f, ts⟩ = true) : (t.op input f).Allowed f := by
  rcases t.op_cases input f with hquiet | ⟨name, rfl⟩ | ⟨name, record, sub, rfl⟩ | ⟨name, rfl⟩
  · exact hquiet.allowed ts h hsteady
  all_goals trivial

end Steps

section Runs

theorem recorded_started (wall : Int) : Recorded (Front.started wall : Front Name) where
  offset := le_refl 0
  active _ _ _ hs := by cases hs
  kept _ _ hk := by cases hk
  given _ _ he := by cases he
  ids _ _ he := by cases he
  policyOwner _ _ _ hk := by cases hk
  labelsOwner _ _ _ hk := by cases hk

theorem good_of_begins {f : Front Name} {t : Thread Name} (hbegins : t.begins = true) (hshort : t.short = true) :
    t.Good f := by
  cases t with
  | create name p push stage => simpa [Thread.short, Thread.Good] using hshort
  | update name p labels push stage =>
    intro q hq
    subst hq
    simpa [Thread.short] using hshort
  | advance d => simpa [Thread.begins, Thread.Good] using hbegins
  | sweep stage =>
    obtain rfl : stage = .waiting := of_decide_eq_true hbegins
    trivial
  | _ => trivial

theorem good_of_run {wall : Int} {ms : List (Move (Thread Name) Input)}
    (hms : program.Along (fun m s => careful m s = true) ms (started wall)) :
    Recorded (program.run ms (started wall)).shared ∧
      ∀ t ∈ (program.run ms (started wall)).threads, t.Good (program.run ms (started wall)).shared := by
  refine Program.each ?_ ?_ hms (recorded_started wall) (by simp [started])
  · intro s t hok _
    obtain ⟨hbegins, hshort⟩ := Bool.and_eq_true_iff.mp hok
    exact good_of_begins hbegins hshort
  · intro f i input left t right hok hget hf ht hothers
    simp only [careful, hget, Option.all_some, Bool.and_eq_true] at hok
    obtain ⟨hsteady, hquiet⟩ := hok
    have hop := ht.op_allowed hsteady
    have hnow := now_le_apply hf.offset hop
    refine ⟨hf.apply hop, fun t' ht' => ht.after hf hsteady hnow ht', fun t' ht' => ?_⟩
    refine (hothers t' ht').apply hf hnow ?_
    have hmem : t' ∈ left ++ t :: right := Program.mem_kept ht'
    simpa using List.all_eq_true.mp hquiet t' hmem

end Runs

end CloudBurrow.PubSub
