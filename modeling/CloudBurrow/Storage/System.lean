import CloudBurrow.Storage.Handles

namespace CloudBurrow.Storage

open Utf8 Inventory Transaction Interleaving

def Server.catalogue (s : Server) : Catalogue :=
  { bucket := s.store.get .bucket, stock := s.store.stock, lastGen := s.lastGen }

structure Rebucketed (c c' : Catalogue) : Prop where
  stock : c'.stock = c.stock
  lastGen : c'.lastGen = c.lastGen
  bucket : ∀ name b, c'.bucket name = some b → b.name = name

def Rebuckets (tx tx' : Tx) : Prop :=
  (∀ name b, tx.catalogue.bucket name = some b → b.name = name) →
    Rebucketed tx.catalogue tx'.catalogue

namespace Rebuckets

instance : Std.Refl Rebuckets := ⟨fun _ h => ⟨rfl, rfl, h⟩⟩

instance : IsTrans Tx Rebuckets where
  trans _ _ _ h h' hb := by
    have hr := h hb
    have hr' := h' hr.bucket
    exact ⟨hr'.stock.trans hr.stock, hr'.lastGen.trans hr.lastGen, hr'.bucket⟩

theorem of_beside {A : Type} {ks : List Kind} {m : Action A} (h : Moves (Beside ks) m)
    (hk : ∀ k ∈ [Kind.bucket, .object, .noncurrent, .softdeleted], k ∉ ks) :
    Moves Rebuckets m := by
  intro tx hb
  rw [(h tx).catalogue hk]
  exact ⟨rfl, rfl, hb⟩

theorem put (b : BucketRecord) : Moves Rebuckets (putBucket b) := by
  intro tx hb
  have hstock : (tx.store.put .bucket b.name b).stock = tx.store.stock :=
    Store.stock_congr (Store.put_other _ (by simp) _ _) (Store.put_other _ (by simp) _ _)
      (Store.put_other _ (by simp) _ _)
  refine ⟨hstock, rfl, fun name b' h => ?_⟩
  · have hget : (tx.store.put .bucket b.name b).get .bucket name = some b' := h
    by_cases hn : b.name = name
    · subst hn
      rw [Store.get_put_self] at hget
      cases hget
      rfl
    · rw [Store.get_put_key _ hn] at hget
      exact hb name b' hget

theorem delete (name : Bytes) : Moves Rebuckets (Tx.delete .bucket name) := by
  intro tx hb
  have hstock : (tx.store.delete .bucket name).stock = tx.store.stock :=
    Store.stock_congr (Store.delete_other _ (by simp) _) (Store.delete_other _ (by simp) _)
      (Store.delete_other _ (by simp) _)
  refine ⟨hstock, rfl, fun n b h => ?_⟩
  · have hget : (tx.store.delete .bucket name).get .bucket n = some b := h
    by_cases hn : name = n
    · subst hn
      rw [Store.get_delete_self] at hget
      cases hget
    · rw [Store.get_delete_key _ hn] at hget
      exact hb n b hget

end Rebuckets

theorem moves_bucketsInsert (r : InsertCall) (now : Time) : Moves Rebuckets (bucketsInsert r now) := by
  refine moves_check_bind <| moves_check_bind ?_
  refine moves_ofExcept_bind fun b => moves_check_bind ?_
  refine moves_ofExcept_bind fun b => moves_read_bind fun old => ?_
  cases old with
  | some _ => exact (still_refuse _).moves
  | none => exact moves_bind (.put b) fun _ => moves_pure b

theorem moves_bucketsModify (r : BucketCall) (now : Time) : Moves Rebuckets (bucketsModify r now) := by
  refine (still_existingBucket _).then fun b => ?_
  refine moves_check_bind <| moves_check_bind ?_
  exact moves_ofExcept_bind fun next => moves_bind (.put _) fun _ => moves_pure _

theorem moves_bucketsLock (name : Bytes) (want : Int) (now : Time) :
    Moves Rebuckets (bucketsLockRetentionPolicy name want now) := by
  refine (still_existingBucket _).then fun b => ?_
  split_ifs
  · exact moves_refuse _
  · exact moves_refuse _
  · exact moves_refuse _
  · exact moves_bind (.put _) fun _ => moves_pure _

theorem moves_deleteNotifications (bucket : Bytes) :
    Moves (Beside [.notification]) (deleteNotifications bucket) :=
  moves_read_bind fun keys =>
    moves_forEach keys fun key _ => (runs_delete (by simp) key).moves

theorem still_channelsOf (bucket : Bytes) : Still (channelsOf bucket) :=
  still_bind (still_read _) fun _ => still_pure _

theorem moves_deleteChannels (bucket : Bytes) : Moves (Beside notifyKinds) (deleteChannels bucket) :=
  (still_channelsOf _).then fun channels =>
    moves_forEach channels fun c _ => (runs_removeChannel c).moves

theorem moves_softDeleteBucket (b : BucketRecord) (now : Time) :
    Moves (Beside [.softbucket]) (softDeleteBucket b now) := by
  unfold softDeleteBucket
  split_ifs
  · exact moves_pure ()
  · exact (runs_put (by simp) _ _).moves

theorem moves_bucketsDelete (name : Bytes) (pre : Preconditions) (now : Time) :
    Moves Rebuckets (bucketsDelete name pre now) := by
  refine (still_existingBucket _).then fun b => moves_check_bind ?_
  refine moves_read_bind fun objects => moves_read_bind fun older => ?_
  refine moves_read_bind fun managed => moves_read_bind fun folders => ?_
  split_ifs
  · exact moves_refuse _
  · exact moves_refuse _
  · exact moves_refuse _
  · refine moves_bind (.delete name) fun _ => ?_
    refine moves_bind (.of_beside (moves_deleteNotifications name) (by decide)) fun _ => ?_
    refine moves_bind (.of_beside (moves_deleteChannels name) notify_apart) fun _ => ?_
    exact .of_beside (moves_softDeleteBucket b now) (by decide)

theorem moves_bucketsRestore (name : Bytes) (generation : Int) (now : Time) :
    Moves Rebuckets (bucketsRestore name generation now) := by
  refine moves_read_bind fun b => ?_
  cases b with
  | none => exact (still_refuse _).moves
  | some b =>
    dsimp only
    split_ifs
    · exact moves_refuse _
    refine moves_read_bind fun old => ?_
    cases old with
    | some _ => exact (still_refuse _).moves
    | none =>
      refine moves_bind (.of_beside (runs_delete (List.mem_singleton_self Kind.softbucket) _).moves
        (by decide)) fun _ => ?_
      exact moves_bind (.put _) fun _ => moves_pure _

inductive Change (now : Time) (gs : Grant) (c c' : Catalogue) : Prop
  | edits (h : Edits now gs c c')
  | patched (h : Patched c c')
  | rebucketed (h : Rebucketed c c')

namespace Change

variable {now : Time} {gs : Grant} {c c' : Catalogue}

theorem refl (now : Time) (gs : Grant) (c : Catalogue) : Change now gs c c := .edits .refl

theorem lastGen (h : Change now gs c c') : c.lastGen ≤ c'.lastGen := by
  cases h with
  | edits h => exact h.lastGen
  | patched h =>
    obtain ⟨p, o, o', ho, hs, rfl⟩ := h
    exact le_rfl
  | rebucketed h => exact h.lastGen.ge

theorem sound (h : Change now gs c c') (hc : c.Sound) : c'.Sound := by
  cases h with
  | edits h => exact h.sound hc
  | patched h =>
    obtain ⟨p, o, o', ho, hs, rfl⟩ := h
    exact hc.exchange ho hs.generation (hs.proper (hc.proper p o ho))
  | rebucketed h =>
    refine ⟨h.bucket, ?_, ?_, ?_⟩
    · rw [h.stock]
      exact hc.proper
    · rw [h.stock]
      exact hc.unique
    · rw [h.stock, h.lastGen]
      exact hc.bounded

theorem fresh (h : Change now gs c c') {g : Int} (hg : ∀ key, ¬ gs.add key g)
    (hu : FreshIn c.stock g) : FreshIn c'.stock g := by
  cases h with
  | edits h => exact h.fresh hg hu
  | patched h =>
    obtain ⟨p, o, o', ho, hs, rfl⟩ := h
    exact hu.exchange ho hs.generation p
  | rebucketed h =>
    rw [h.stock]
    exact hu

end Change

theorem Keeps.version {now : Time} {c c' : Catalogue} (h : Keeps now c c') (hc : c.Sound)
    (hc' : c'.Sound) {p : Place} {o : ObjectRecord} (hp : p.slot ≠ .soft) (ho : o ∈ c.stock p)
    (hg : c.Guarded now o) : ∃ q, c.Settles o p q ∧ ∃ o' ∈ c'.stock q, SameVersion o o' := by
  obtain ⟨q, o', ho', hset, hs⟩ := h.kept p o hp ho hg
  refine ⟨q, hset, o', ho', hs.version ?_⟩
  have hkey : q.key = p.key := by
    rcases hset with rfl | ⟨-, rfl, -⟩ <;> rfl
  have h₁ := (hc.proper p o ho).key
  have h₂ := (hc'.proper q o' ho').key
  rw [hkey, ← h₁, hs.bucket] at h₂
  simpa [objectKey] using h₂

theorem Change.preserves {now : Time} {gs : Grant} {c c' : Catalogue} (h : Change now gs c c')
    (hc : c.Sound) {p : Place} {o : ObjectRecord} (hp : p.slot ≠ .soft) (ho : o ∈ c.stock p)
    (hg : c.Guarded now o) : ∃ q, c.Settles o p q ∧ ∃ o' ∈ c'.stock q, SameVersion o o' := by
  have hc' := h.sound hc
  cases h with
  | edits h => exact h.keeps.version hc hc' hp ho hg
  | patched h =>
    obtain ⟨r, x, x', hx, hs, rfl⟩ := h
    by_cases hsame : r = p ∧ x = o
    · obtain ⟨rfl, rfl⟩ := hsame
      exact ⟨r, .inl rfl, x', mem_give.mpr (.inl ⟨rfl, rfl⟩), hs⟩
    · refine ⟨p, .inl rfl, o, mem_give.mpr (.inr (mem_take_of_ne ho ?_)), .refl o⟩
      by_contra hne
      push Not at hne
      exact hsame ⟨hne.1.symm, hne.2.symm⟩
  | rebucketed h => exact ⟨p, .inl rfl, o, h.stock ▸ ho, .refl o⟩

theorem Server.update_change {A : Type} {now : Time} {gs : Grant} {e : Env} {m : Action A}
    {s : Server} (h : Change now gs s.catalogue (m (s.tx e)).2.catalogue) :
    Change now gs s.catalogue (s.update e m).2.catalogue := by
  unfold Server.update
  rcases hm : m (s.tx e) with ⟨r, tx⟩
  rw [hm] at h
  cases r with
  | ok a => exact h
  | error err => exact .edits (.single (.advance h.lastGen))

end CloudBurrow.Storage
