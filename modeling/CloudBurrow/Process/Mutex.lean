import CloudBurrow.Process.Threads

namespace CloudBurrow.Threads

variable {S L I : Type}

structure Guard (S L : Type) where
  taken : S → Bool
  holds : L → Bool
  free : S → Prop
  held : S → L → Prop
  sound : L → Prop

namespace Guard

variable (g : Guard S L)

inductive Step (s : S) (l : L) : List L × S → Prop
  | outside {ls : List L} {s' : S} (hl : g.holds l = false) (hls : ∀ l' ∈ ls, g.holds l' = false)
      (htaken : g.taken s' = g.taken s) (hfree : g.free s → g.free s')
      (hheld : ∀ l', g.holds l' = true → g.held s l' → g.held s' l') : Step s l (ls, s')
  | take {l' : L} {s' : S} (hl : g.holds l = false) (htaken : g.taken s = false) (htaken' : g.taken s' = true)
      (hl' : g.holds l' = true) (hheld : g.free s → g.held s' l') : Step s l ([l'], s')
  | inside {l' : L} {s' : S} (hl : g.holds l = true) (hl' : g.holds l' = true)
      (htaken : g.taken s' = g.taken s) (hheld : g.held s' l') : Step s l ([l'], s')
  | release {ls : List L} {s' : S} (hl : g.holds l = true) (hls : ∀ l' ∈ ls, g.holds l' = false)
      (htaken : g.taken s' = false) (hfree : g.free s') : Step s l (ls, s')

inductive Kept (s : S) (ls : List L) : Prop
  | free (htaken : g.taken s = false) (hfree : g.free s) (hls : ls.filter g.holds = [])
  | held (l : L) (htaken : g.taken s = true) (hheld : g.held s l) (hls : ls.filter g.holds = [l])

variable {g} {s : S} {ls left right : List L} {l : L}

theorem Kept.enter (h : g.Kept s ls) (hl : g.holds l = false) : g.Kept s (l :: ls) := by
  have hfilter : (l :: ls).filter g.holds = ls.filter g.holds := List.filter_cons_of_neg (by simp [hl])
  cases h with
  | free htaken hfree hls => exact .free htaken hfree (hfilter.trans hls)
  | held l₀ htaken hheld hls => exact .held l₀ htaken hheld (hfilter.trans hls)

theorem Kept.holder (h : g.Kept s (left ++ l :: right)) (hl : g.holds l = true) :
    g.taken s = true ∧ g.held s l ∧ left.filter g.holds = [] ∧ right.filter g.holds = [] := by
  have hfilter : (left ++ l :: right).filter g.holds = left.filter g.holds ++ l :: right.filter g.holds := by
    rw [List.filter_append, List.filter_cons_of_pos hl]
  cases h with
  | free htaken hfree hls =>
    rw [hfilter] at hls
    simp at hls
  | held l₀ htaken hheld hls =>
    rw [hfilter, List.append_eq_singleton_iff] at hls
    rcases hls with ⟨hleft, hright⟩ | ⟨-, hright⟩
    · obtain ⟨rfl, hnil⟩ := List.cons.inj hright
      exact ⟨htaken, hheld, hleft, hnil⟩
    · cases hright

theorem Kept.step {after : List L × S} (h : g.Kept s (left ++ l :: right)) (hstep : g.Step s l after) :
    g.Kept after.2 (left ++ after.1 ++ right) := by
  have hfilter : ∀ ls : List L, (left ++ ls ++ right).filter g.holds =
      left.filter g.holds ++ ls.filter g.holds ++ right.filter g.holds := by
    intro ls
    rw [List.filter_append, List.filter_append]
  have hnone : ∀ ls : List L, (∀ l' ∈ ls, g.holds l' = false) → ls.filter g.holds = [] := by
    intro ls hls
    rw [List.filter_eq_nil_iff]
    intro l' hl'
    simp [hls l' hl']
  have hold : g.holds l = false →
      (left ++ l :: right).filter g.holds = left.filter g.holds ++ right.filter g.holds := by
    intro hl
    rw [List.filter_append, List.filter_cons_of_neg (by simp [hl])]
  cases hstep with
  | @outside ls s' hl hls htaken hfree hheld =>
    have hsame : (left ++ ls ++ right).filter g.holds = (left ++ l :: right).filter g.holds := by
      rw [hfilter, hnone ls hls, hold hl, List.append_nil]
    cases h with
    | free htaken' hfree' hall => exact .free (htaken.trans htaken') (hfree hfree') (hsame.trans hall)
    | held l₀ htaken' hheld' hall =>
      have hown : g.holds l₀ = true := (List.mem_filter.mp (hall ▸ List.mem_singleton_self l₀)).2
      exact .held l₀ (htaken.trans htaken') (hheld l₀ hown hheld') (hsame.trans hall)
  | @take l' s' hl htaken htaken' hl' hheld =>
    cases h with
    | free _ hfree hall =>
      rw [hold hl, List.append_eq_nil_iff] at hall
      refine .held l' htaken' (hheld hfree) ?_
      rw [hfilter, hall.1, hall.2, List.filter_cons_of_pos hl']
      rfl
    | held l₀ htaken'' =>
      rw [htaken] at htaken''
      cases htaken''
  | @inside l' s' hl hl' htaken hheld =>
    obtain ⟨htaken', -, hleft, hright⟩ := h.holder hl
    refine .held l' (htaken.trans htaken') hheld ?_
    rw [hfilter, hleft, hright, List.filter_cons_of_pos hl']
    rfl
  | @release ls s' hl hls htaken hfree =>
    obtain ⟨-, -, hleft, hright⟩ := h.holder hl
    refine .free htaken hfree ?_
    rw [hfilter, hleft, hright, hnone ls hls]
    rfl

theorem kept_of_run {p : Program S L I} {ok : Move L I → Sys S L → Prop}
    (enter : ∀ s l, ok (.enter l) s → g.holds l = false ∧ g.sound l)
    (step : ∀ s i input left l right, ok (.step i input) ⟨s, left ++ l :: right⟩ → (left ++ l :: right)[i]? = some l →
      g.sound l → (g.holds l = true → g.held s l) →
      g.Step s l (p.advance input l s) ∧ ∀ l' ∈ (p.advance input l s).1, g.sound l')
    {ms : List (Move L I)} {s : Sys S L} (hms : p.Along ok ms s) (hs : g.Kept s.shared s.threads)
    (hsound : ∀ l ∈ s.threads, g.sound l) : g.Kept (p.run ms s).shared (p.run ms s).threads := by
  let Inv : Sys S L → Prop := fun s => g.Kept s.shared s.threads ∧ ∀ l ∈ s.threads, g.sound l
  have hinv : Inv (p.run ms s) := by
    refine Program.invariant ?_ ?_ hms ⟨hs, hsound⟩
    · rintro s l hok ⟨hkept, hall⟩
      obtain ⟨hl, hlsound⟩ := enter s l hok
      refine ⟨hkept.enter hl, fun l' hl' => ?_⟩
      rcases List.mem_cons.mp hl' with rfl | hmem
      · exact hlsound
      · exact hall l' hmem
    · rintro s i input left l right hok hget ⟨hkept, hall⟩
      obtain ⟨hstep, hnew⟩ := step s i input left l right hok hget (hall l (by simp)) fun hl => (hkept.holder hl).2.1
      refine ⟨hkept.step hstep, fun l' hl' => ?_⟩
      rcases Program.mem_replaced hl' with hmem | hmem
      · exact hnew l' hmem
      · apply hall l'
        simp only [List.mem_append, List.mem_cons] at hmem ⊢
        tauto
  exact hinv.1

end Guard

end CloudBurrow.Threads
