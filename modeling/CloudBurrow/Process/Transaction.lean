import Mathlib

namespace CloudBurrow.Transaction

variable {S E A B : Type}

def Txn (S E A : Type) : Type := S → Except E A × S

namespace Txn

def result (a : A) : Txn S E A := fun s => (.ok a, s)

def refuse (e : E) : Txn S E A := fun s => (.error e, s)

def andThen (m : Txn S E A) (f : A → Txn S E B) : Txn S E B := fun s =>
  match m s with
  | (.ok a, s') => f a s'
  | (.error e, s') => (.error e, s')

instance : Monad (Txn S E) where
  pure := result
  bind := andThen

def read (f : S → A) : Txn S E A := fun s => (.ok (f s), s)

def write (f : S → S) : Txn S E Unit := fun s => (.ok (), f s)

def check : Option E → Txn S E Unit
  | none => result ()
  | some e => refuse e

def ofExcept : Except E A → Txn S E A
  | .ok a => result a
  | .error e => refuse e

def attempt (m : Txn S E A) : Txn S E (Except E A) := fun s => (.ok (m s).1, (m s).2)

def forEach (items : List B) (f : B → Txn S E Unit) : Txn S E Unit :=
  match items with
  | [] => result ()
  | b :: rest => andThen (f b) fun _ => forEach rest f

@[simp] theorem run_pure (a : A) (s : S) : (pure a : Txn S E A) s = (.ok a, s) := rfl

@[simp] theorem run_refuse (e : E) (s : S) : (refuse e : Txn S E A) s = (.error e, s) := rfl

@[simp] theorem run_check_some (e : E) (s : S) : check (some e) s = (.error e, s) := rfl

@[simp] theorem run_ofExcept_error (e : E) (s : S) :
    (ofExcept (.error e) : Txn S E A) s = (.error e, s) := rfl

theorem run_bind (m : Txn S E A) (f : A → Txn S E B) (s : S) : (m >>= f) s = match m s with
      | (.ok a, s') => f a s'
      | (.error e, s') => (.error e, s') := rfl

theorem except_bind_ok {r : Except E A} {f : A → Except E B} {b : B} (h : (r >>= f) = .ok b) :
    ∃ a, r = .ok a ∧ f a = .ok b := by
  cases r with
  | error e => cases h
  | ok a => exact ⟨a, rfl, h⟩

theorem bind_ok {m : Txn S E A} {f : A → Txn S E B} {s s' : S} {a : A}
    (h : m s = (.ok a, s')) : (m >>= f) s = f a s' := by
  rw [run_bind, h]

@[simp] theorem read_bind (g : S → A) (f : A → Txn S E B) (s : S) : (read g >>= f) s = f (g s) s := rfl

@[simp] theorem check_none_bind (f : Unit → Txn S E B) (s : S) : (check none >>= f) s = f () s := rfl

@[simp] theorem check_some_bind (e : E) (f : Unit → Txn S E B) (s : S) :
    (check (some e) >>= f) s = (.error e, s) := rfl

theorem bind_ok_inv {m : Txn S E A} {f : A → Txn S E B} {s t : S} {b : B}
    (h : (m >>= f) s = (.ok b, t)) : ∃ a s', m s = (.ok a, s') ∧ f a s' = (.ok b, t) := by
  rw [run_bind] at h
  rcases hm : m s with ⟨r, s'⟩
  rw [hm] at h
  cases r with
  | error e => exact absurd h (by simp)
  | ok a => exact ⟨a, s', rfl, h⟩

end Txn

open Txn

def Moves (R : S → S → Prop) (m : Txn S E A) : Prop := ∀ s, R s (m s).2

section Rules

variable {R : S → S → Prop} [Std.Refl R] [IsTrans S R]

omit [IsTrans S R] in
theorem moves_pure (a : A) : Moves R (pure a : Txn S E A) := fun s => Std.Refl.refl s

omit [IsTrans S R] in
theorem moves_refuse (e : E) : Moves R (refuse e : Txn S E A) := fun s => Std.Refl.refl s

omit [IsTrans S R] in
theorem moves_read (f : S → A) : Moves R (read f : Txn S E A) := fun s => Std.Refl.refl s

omit [IsTrans S R] in
theorem moves_ofExcept (r : Except E A) : Moves R (ofExcept r) := by
  intro s
  cases r <;> exact Std.Refl.refl s

omit [Std.Refl R] in
theorem moves_bind {m : Txn S E A} {f : A → Txn S E B} (hm : Moves R m)
    (hf : ∀ a, Moves R (f a)) : Moves R (m >>= f) := by
  intro s
  have hs := hm s
  rw [run_bind]
  rcases h : m s with ⟨r, s'⟩
  rw [h] at hs
  cases r with
  | error e => exact hs
  | ok a => exact IsTrans.trans _ _ _ hs (hf a s')

theorem moves_forEach {f : B → Txn S E Unit} (items : List B)
    (h : ∀ b ∈ items, Moves R (f b)) : Moves R (forEach items f) := by
  induction items with
  | nil => exact moves_pure ()
  | cons b rest ih =>
    obtain ⟨hb, hrest⟩ := List.forall_mem_cons.mp h
    exact moves_bind hb fun _ => ih hrest

end Rules

def Still (m : Txn S E A) : Prop := ∀ s, (m s).2 = s

theorem still_pure (a : A) : Still (pure a : Txn S E A) := fun _ => rfl

theorem still_refuse (e : E) : Still (refuse e : Txn S E A) := fun _ => rfl

theorem still_read (f : S → A) : Still (read f : Txn S E A) := fun _ => rfl

theorem still_check (o : Option E) : Still (check o : Txn S E Unit) := by
  intro s
  cases o <;> rfl

theorem still_ofExcept (r : Except E A) : Still (ofExcept r : Txn S E A) := by
  intro s
  cases r <;> rfl

variable {m : Txn S E A} {f : A → Txn S E B}

theorem still_bind (hm : Still m) (hf : ∀ a, Still (f a)) : Still (m >>= f) := by
  intro s
  have hs := hm s
  rw [run_bind]
  rcases h : m s with ⟨r, s'⟩
  rw [h] at hs
  cases r with
  | error e => exact hs
  | ok a => exact (hf a s').trans hs

theorem Still.moves {R : S → S → Prop} [Std.Refl R] (h : Still m) : Moves R m := by
  intro s
  rw [h s]
  exact Std.Refl.refl s

section Then

variable {R : S → S → Prop} [Std.Refl R] [IsTrans S R]

theorem Still.then (h : Still m) (hf : ∀ a, Moves R (f a)) : Moves R (m >>= f) := moves_bind h.moves hf

theorem moves_read_bind {g : S → A} (h : ∀ a, Moves R (f a)) : Moves R (read g >>= f) := (still_read g).then h

theorem moves_check_bind {o : Option E} {m : Txn S E A} (h : Moves R m) : Moves R (check o >>= fun _ => m) :=
  (still_check o).then fun _ => h

theorem moves_ofExcept_bind {r : Except E A} (h : ∀ a, Moves R (f a)) : Moves R (ofExcept r >>= f) :=
  (still_ofExcept r).then h

end Then

variable {s : S}

theorem after_still {Q : S → Prop} (hm : Still m)
    (h₀ : Q s) (hf : ∀ a, m s = (.ok a, s) → Q (f a s).2) : Q ((m >>= f) s).2 := by
  have hs := hm s
  rw [run_bind]
  rcases h : m s with ⟨r, s'⟩
  rw [h] at hs
  dsimp only at hs
  subst hs
  cases r with
  | error e => exact h₀
  | ok a => exact hf a h

theorem after_bind {Q : S → Prop} (h₀ : Q (m s).2) (hf : ∀ a s', m s = (.ok a, s') → Q s' → Q (f a s').2) :
    Q ((m >>= f) s).2 := by
  rw [run_bind]
  rcases h : m s with ⟨r, s'⟩
  rw [h] at h₀
  cases r with
  | error e => exact h₀
  | ok a => exact hf a s' h h₀

theorem still_ok {s' : S} {a : A} (hm : Still m) (h : m s = (.ok a, s')) : s' = s := by
  have hs := hm s
  rw [h] at hs
  exact hs

def Returns (P : A → Prop) (m : Txn S E A) : Prop := ∀ s a s', m s = (.ok a, s') → P a

theorem returns_pure {P : A → Prop} {a : A} (h : P a) : Returns P (pure a : Txn S E A) := by
  intro s b s' hrun
  cases hrun
  exact h

theorem returns_ofExcept {P : A → Prop} {r : Except E A} (h : ∀ a, r = .ok a → P a) :
    Returns P (ofExcept r : Txn S E A) := by
  intro s a s' hrun
  cases r with
  | error e => cases hrun
  | ok b =>
    cases hrun
    exact h a rfl

theorem returns_bind {P : B → Prop} (h : ∀ a, Returns P (f a)) : Returns P (m >>= f) := by
  intro s b s' hrun
  obtain ⟨a, t, -, hf⟩ := bind_ok_inv hrun
  exact h a t b s' hf

def Runs (R : S → S → Prop) (m : Txn S E A) : Prop := ∀ s, ∃ a s', m s = (.ok a, s') ∧ R s s'

theorem Runs.moves {R : S → S → Prop} (h : Runs R m) : Moves R m := by
  intro s
  obtain ⟨a, s', hm, hR⟩ := h s
  rw [hm]
  exact hR

section Total

variable {R : S → S → Prop} [Std.Refl R] [IsTrans S R]

omit [IsTrans S R] in
theorem runs_pure (a : A) : Runs R (pure a : Txn S E A) := fun s => ⟨a, s, rfl, Std.Refl.refl s⟩

omit [IsTrans S R] in
theorem runs_read (f : S → A) : Runs R (read f : Txn S E A) :=
  fun s => ⟨f s, s, rfl, Std.Refl.refl s⟩

omit [Std.Refl R] [IsTrans S R] in
theorem runs_write {f : S → S} (h : ∀ s, R s (f s)) : Runs R (write f : Txn S E Unit) :=
  fun s => ⟨(), f s, rfl, h s⟩

omit [Std.Refl R] in
theorem runs_bind {m : Txn S E A} {f : A → Txn S E B} (hm : Runs R m)
    (hf : ∀ a, Runs R (f a)) : Runs R (m >>= f) := by
  intro s
  obtain ⟨a, s', hms, hR⟩ := hm s
  obtain ⟨b, t, hfs, hR'⟩ := hf a s'
  exact ⟨b, t, (bind_ok hms).trans hfs, IsTrans.trans _ _ _ hR hR'⟩

theorem runs_forEach {f : B → Txn S E Unit} (items : List B) (h : ∀ b ∈ items, Runs R (f b)) :
    Runs R (forEach items f) := by
  induction items with
  | nil => exact runs_pure ()
  | cons b rest ih =>
    obtain ⟨hb, hrest⟩ := List.forall_mem_cons.mp h
    exact runs_bind hb fun _ => ih hrest

end Total

end CloudBurrow.Transaction
