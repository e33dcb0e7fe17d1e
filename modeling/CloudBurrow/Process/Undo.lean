import Mathlib

namespace CloudBurrow.Undo

variable {ι σ : Type} {step back : ι → σ → σ}

def run (step : ι → σ → σ) (is : List ι) (s : σ) : σ := is.foldl (fun s i => step i s) s

theorem run_cons (i : ι) (is : List ι) (s : σ) : run step (i :: is) s = run step is (step i s) := rfl

theorem run_snoc (is : List ι) (i : ι) (s : σ) : run step (is ++ [i]) s = step i (run step is s) := by
  rw [run, List.foldl_append]
  rfl

theorem run_undone (h : ∀ i s, back i (step i s) = s) (is : List ι) (s : σ) :
    run back is.reverse (run step is s) = s := by
  induction is generalizing s with
  | nil => rfl
  | cons i is ih =>
    rw [run_cons, List.reverse_cons, run_snoc, ih, h]

theorem run_redone (h : ∀ i s, step i (back i s) = s) (is : List ι) (s : σ) :
    run step is (run back is.reverse s) = s := by
  have hundone := run_undone h is.reverse s
  rwa [List.reverse_reverse] at hundone

theorem run_keeps {P : σ → Prop} (h : ∀ i s, P s → P (step i s)) {is : List ι} {s : σ} (hs : P s) :
    P (run step is s) := by
  induction is generalizing s with
  | nil => exact hs
  | cons i is ih => exact ih (h i s hs)

end CloudBurrow.Undo
