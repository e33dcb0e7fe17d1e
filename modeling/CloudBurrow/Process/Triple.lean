import CloudBurrow.Process.Transaction

namespace CloudBurrow.Transaction

open Txn

variable {S E A B : Type}

def Triple (pre : S → Prop) (m : Txn S E A) (post : A → S → Prop) (fail : S → Prop) : Prop :=
  ∀ s, pre s → (∀ a t, m s = (.ok a, t) → post a t) ∧ ∀ e t, m s = (.error e, t) → fail t

namespace Triple

variable {pre pre' : S → Prop} {m : Txn S E A} {post post' : A → S → Prop} {fail fail' : S → Prop}

theorem conseq (h : Triple pre m post fail) (hpre : ∀ s, pre' s → pre s)
    (hpost : ∀ a s, post a s → post' a s) (hfail : ∀ s, fail s → fail' s) :
    Triple pre' m post' fail' := by
  intro s hs
  obtain ⟨hok, herr⟩ := h s (hpre s hs)
  exact ⟨fun a t hrun => hpost a t (hok a t hrun), fun e t hrun => hfail t (herr e t hrun)⟩

theorem weaken (h : Triple pre m post fail) (hpre : ∀ s, pre' s → pre s) : Triple pre' m post fail :=
  h.conseq hpre (fun _ _ hp => hp) fun _ hf => hf

theorem result {a : A} (h : ∀ s, pre s → post a s) : Triple pre (pure a : Txn S E A) post fail := by
  intro s hs
  refine ⟨fun b t hrun => ?_, fun e t hrun => ?_⟩
  · cases hrun
    exact h s hs
  · cases hrun

theorem refused {e : E} (h : ∀ s, pre s → fail s) : Triple pre (refuse e : Txn S E A) post fail := by
  intro s hs
  refine ⟨fun b t hrun => ?_, fun e' t hrun => ?_⟩
  · cases hrun
  · cases hrun
    exact h s hs

theorem bind {mid : A → S → Prop} {f : A → Txn S E B} {post : B → S → Prop}
    (hm : Triple pre m mid fail) (hf : ∀ a, Triple (mid a) (f a) post fail) :
    Triple pre (m >>= f) post fail := by
  intro s hs
  obtain ⟨hok, herr⟩ := hm s hs
  rw [run_bind]
  rcases hrun : m s with ⟨r, t⟩
  cases r with
  | ok a => exact hf a t (hok a t hrun)
  | error e =>
    refine ⟨fun b t' h => ?_, fun e' t' h => ?_⟩
    · cases h
    · cases h
      exact herr e t hrun

theorem peek {g : S → A} {f : A → Txn S E B} {post : B → S → Prop}
    (h : ∀ s, pre s → Triple (fun s' => s' = s) (f (g s)) post fail) :
    Triple pre (read g >>= f) post fail := by
  intro s hs
  exact h s hs s rfl

theorem writing {f : S → S} {post : Unit → S → Prop} (h : ∀ s, pre s → post () (f s)) :
    Triple pre (write f : Txn S E Unit) post fail := by
  intro s hs
  refine ⟨fun b t hrun => ?_, fun e t hrun => ?_⟩
  · cases hrun
    exact h s hs
  · cases hrun

theorem deciding {c : Prop} [Decidable c] {m' : Txn S E A}
    (h : c → Triple pre m post fail) (h' : ¬ c → Triple pre m' post fail) :
    Triple pre (if c then m else m') post fail := by
  split_ifs with hc
  · exact h hc
  · exact h' hc

theorem each {inv : S → Prop} {f : B → Txn S E Unit} {items : List B}
    (h : ∀ b ∈ items, Triple inv (f b) (fun _ => inv) fail) :
    Triple inv (forEach items f) (fun _ => inv) fail := by
  induction items with
  | nil => exact result fun s hs => hs
  | cons b rest ih =>
    obtain ⟨hb, hrest⟩ := List.forall_mem_cons.mp h
    exact bind hb fun _ => ih hrest

theorem each_done {inv : S → Prop} {done : B → S → Prop} {f : B → Txn S E Unit} {items : List B}
    (h : ∀ b ∈ items, Triple inv (f b) (fun _ s => inv s ∧ done b s) fail)
    (hkeep : ∀ b ∈ items, ∀ b', Triple (fun s => inv s ∧ done b' s) (f b)
      (fun _ s => inv s ∧ done b' s) fail) :
    Triple inv (forEach items f) (fun _ s => inv s ∧ ∀ b ∈ items, done b s) fail := by
  suffices hall : ∀ past : List B, Triple (fun s => inv s ∧ ∀ b ∈ past, done b s) (forEach items f)
      (fun _ s => inv s ∧ ∀ b ∈ past ++ items, done b s) fail by
    refine (hall []).weaken fun s hs => ⟨hs, ?_⟩
    intro b hb
    cases hb
  induction items with
  | nil => exact fun past => result fun s hs => by simpa using hs
  | cons b rest ih =>
    intro past
    obtain ⟨hb, hrest⟩ := List.forall_mem_cons.mp h
    obtain ⟨hkb, hkrest⟩ := List.forall_mem_cons.mp hkeep
    have hturn : Triple (fun s => inv s ∧ ∀ b' ∈ past, done b' s) (f b)
        (fun _ s => inv s ∧ ∀ b' ∈ past ++ [b], done b' s) fail := by
      intro s hs
      obtain ⟨hok, herr⟩ := hb s hs.1
      refine ⟨fun a t hrun => ⟨(hok a t hrun).1, fun b' hb' => ?_⟩, herr⟩
      rcases List.mem_append.mp hb' with hpast | hnow
      · exact ((hkb b' s ⟨hs.1, hs.2 b' hpast⟩).1 a t hrun).2
      · rw [List.mem_singleton.mp hnow]
        exact (hok a t hrun).2
    refine bind hturn fun _ => ?_
    have hrest' := ih hrest hkrest (past ++ [b])
    rw [List.append_assoc] at hrest'
    exact hrest'

end Triple

end CloudBurrow.Transaction
