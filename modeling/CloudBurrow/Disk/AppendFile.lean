import Mathlib

namespace CloudBurrow.AppendFile

variable {A : Type}

inductive Edit (A : Type) where
  | truncate (size : Nat)
  | write (items : List A)

def Edit.run (content : List A) : Edit A → List A
  | .truncate size => content.take size
  | .write items => content ++ items

structure File (A : Type) where
  synced : List A
  pending : List (Edit A)

namespace File

def current (f : File A) : List A := f.pending.foldl Edit.run f.synced

def edit (f : File A) (e : Edit A) : File A := { f with pending := f.pending ++ [e] }

def sync (f : File A) : File A := ⟨f.current, []⟩

@[simp] theorem current_edit (f : File A) (e : Edit A) : (f.edit e).current = e.run f.current := by
  simp [current, edit]

@[simp] theorem current_sync (f : File A) : f.sync.current = f.current := rfl

end File

inductive Survives : List A → List (Edit A) → List A → Prop
  | stop (content : List A) (edits : List (Edit A)) : Survives content edits content
  | torn (content items : List A) (edits : List (Edit A)) (size : Nat) :
      Survives content (.write items :: edits) (content ++ items.take size)
  | done {content : List A} {e : Edit A} {edits : List (Edit A)} {left : List A} :
      Survives (e.run content) edits left → Survives content (e :: edits) left

def File.Crash (f : File A) (left : List A) : Prop := Survives f.synced f.pending left

variable {content left : List A}

theorem survives_nil (h : Survives content [] left) : left = content := by
  cases h
  rfl

theorem survives_foldl (content : List A) (edits : List (Edit A)) :
    Survives content edits (edits.foldl Edit.run content) := by
  induction edits generalizing content with
  | nil => exact Survives.stop content []
  | cons e edits ih => exact Survives.done (ih (e.run content))

theorem survives_append {edits : List (Edit A)} {e : Edit A} (h : Survives content (edits ++ [e]) left) :
    Survives content edits left ∨ Survives (edits.foldl Edit.run content) [e] left := by
  induction edits generalizing content with
  | nil => exact Or.inr h
  | cons d edits ih =>
    cases h with
    | stop => exact Or.inl (Survives.stop _ _)
    | torn _ items _ size => exact Or.inl (Survives.torn _ items edits size)
    | done h =>
      rcases ih h with hleft | hright
      · exact Or.inl (Survives.done hleft)
      · exact Or.inr hright

theorem survives_write {items : List A} (h : Survives content [.write items] left) :
    ∃ size, left = content ++ items.take size := by
  cases h with
  | stop => exact ⟨0, by simp⟩
  | torn _ _ _ size => exact ⟨size, rfl⟩
  | done h => exact ⟨items.length, by simpa [Edit.run] using survives_nil h⟩

theorem survives_truncate {size : Nat}
    (h : Survives content [.truncate size] left) : left = content ∨ left = content.take size := by
  cases h with
  | stop => exact Or.inl rfl
  | done h => exact Or.inr (survives_nil h)

theorem crash_current (f : File A) : f.Crash f.current := survives_foldl f.synced f.pending

theorem crash_sync {f : File A} (h : f.sync.Crash left) : left = f.current :=
  survives_nil h

theorem crash_write {f : File A} {items : List A} (h : (f.edit (.write items)).Crash left) :
    f.Crash left ∨ ∃ size, left = f.current ++ items.take size := by
  rcases survives_append h with hleft | hright
  · exact Or.inl hleft
  · exact Or.inr (survives_write hright)

end CloudBurrow.AppendFile
