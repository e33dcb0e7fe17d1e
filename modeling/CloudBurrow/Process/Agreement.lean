import CloudBurrow.Process.Transaction

namespace CloudBurrow.Transaction

open Txn

variable {S E A B : Type}

def Agrees (R : S → S → Prop) (m : Txn S E A) : Prop :=
  ∀ s t, R s t → (m t).1 = (m s).1 ∧ R (m s).2 (m t).2

variable {R : S → S → Prop}

theorem agrees_pure (a : A) : Agrees R (pure a : Txn S E A) := fun _ _ h => ⟨rfl, h⟩

theorem agrees_refuse (e : E) : Agrees R (refuse e : Txn S E A) := fun _ _ h => ⟨rfl, h⟩

theorem agrees_check (o : Option E) : Agrees R (check o : Txn S E Unit) := by
  intro s t h
  cases o <;> exact ⟨rfl, h⟩

theorem agrees_ofExcept (r : Except E A) : Agrees R (ofExcept r : Txn S E A) := by
  intro s t h
  cases r <;> exact ⟨rfl, h⟩

theorem agrees_read {f : S → A} (hf : ∀ s t, R s t → f t = f s) : Agrees R (read f : Txn S E A) :=
  fun s t h => ⟨congrArg Except.ok (hf s t h), h⟩

theorem agrees_write {f : S → S} (hf : ∀ s t, R s t → R (f s) (f t)) : Agrees R (write f : Txn S E Unit) :=
  fun s t h => ⟨rfl, hf s t h⟩

theorem agrees_bind {m : Txn S E A} {f : A → Txn S E B} (hm : Agrees R m)
    (hf : ∀ a, Agrees R (f a)) : Agrees R (m >>= f) := by
  intro s t h
  obtain ⟨hans, hafter⟩ := hm s t h
  rw [run_bind, run_bind]
  rcases hs : m s with ⟨r, s'⟩
  rcases ht : m t with ⟨r', t'⟩
  rw [hs, ht] at hans hafter
  dsimp only at hans hafter
  subst hans
  cases r' with
  | error e => exact ⟨rfl, hafter⟩
  | ok a => exact hf a s' t' hafter

theorem agrees_assoc {C : Type} {m : Txn S E A} {f : A → Txn S E B} {g : B → Txn S E C}
    (h : Agrees R (m >>= f)) (hg : ∀ b, Agrees R (g b)) :
    Agrees R (m >>= fun a => f a >>= g) := by
  have hassoc : (m >>= fun a => f a >>= g) = (m >>= f) >>= g := by
    funext s
    simp only [run_bind]
    rcases m s with ⟨r, t⟩
    cases r <;> rfl
  rw [hassoc]
  exact agrees_bind h hg

theorem agrees_forEach {f : B → Txn S E Unit} (items : List B) (h : ∀ b ∈ items, Agrees R (f b)) :
    Agrees R (forEach items f) := by
  induction items with
  | nil => exact agrees_pure ()
  | cons b rest ih =>
    obtain ⟨hb, hrest⟩ := List.forall_mem_cons.mp h
    exact agrees_bind hb fun _ => ih hrest

theorem agrees_attempt {m : Txn S E A} (hm : Agrees R m) : Agrees R (attempt m) := by
  intro s t h
  obtain ⟨hans, hafter⟩ := hm s t h
  exact ⟨congrArg Except.ok hans, hafter⟩

end CloudBurrow.Transaction
