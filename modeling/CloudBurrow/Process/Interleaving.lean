import Mathlib

namespace CloudBurrow.Interleaving

variable {S L I : Type}

structure Sys (S L : Type) where
  shared : S
  running : List L

structure Machine (S L I : Type) where
  arrives : L → Prop
  advance : I → L → S → Option L × S

inductive Step (m : Machine S L I) (ok : I → S → L → List L → Prop) : Sys S L → Sys S L → Prop
  | arrive {s : S} {ls : List L} {l : L} (h : m.arrives l) : Step m ok ⟨s, ls⟩ ⟨s, l :: ls⟩
  | run {s : S} {i : I} {left right : List L} {l : L} (h : ok i s l (left ++ right)) :
      Step m ok ⟨s, left ++ l :: right⟩
        ⟨(m.advance i l s).2, left ++ (m.advance i l s).1.toList ++ right⟩

inductive Reach (m : Machine S L I) (ok : I → S → L → List L → Prop) (init : S) : Sys S L → Prop
  | start : Reach m ok init ⟨init, []⟩
  | step {a b : Sys S L} (h : Reach m ok init a) (hs : Step m ok a b) : Reach m ok init b

variable {m : Machine S L I} {ok : I → S → L → List L → Prop} {init : S}

theorem Reach.invariant {Inv : Sys S L → Prop} (start : Inv ⟨init, []⟩)
    (arrive : ∀ s ls l, m.arrives l → Inv ⟨s, ls⟩ → Inv ⟨s, l :: ls⟩)
    (run : ∀ s i left l right, ok i s l (left ++ right) → Inv ⟨s, left ++ l :: right⟩ →
      Inv ⟨(m.advance i l s).2, left ++ (m.advance i l s).1.toList ++ right⟩)
    {a : Sys S L} (h : Reach m ok init a) : Inv a := by
  induction h with
  | start => exact start
  | step _ hs ih =>
    cases hs with
    | arrive hl => exact arrive _ _ _ hl ih
    | run hok => exact run _ _ _ _ _ hok ih

variable {left right : List L}

theorem mem_others {l' : L} {next : Option L}
    (h : l' ∈ left ++ next.toList ++ right) : l' ∈ next ∨ l' ∈ left ++ right := by
  simp only [List.append_assoc, List.mem_append, Option.mem_toList] at h ⊢
  tauto

structure Local (G : S → Prop) (P : S → L → Prop) (a : Sys S L) : Prop where
  shared : G a.shared
  each : ∀ l ∈ a.running, P a.shared l

theorem Reach.each {G : S → Prop} {P : S → L → Prop} (start : G init)
    (arrive : ∀ s l, m.arrives l → G s → P s l)
    (run : ∀ s i l others, ok i s l others → G s → P s l → (∀ l' ∈ others, P s l') →
      G (m.advance i l s).2 ∧ (∀ l' ∈ (m.advance i l s).1, P (m.advance i l s).2 l') ∧
        ∀ l' ∈ others, P (m.advance i l s).2 l')
    {a : Sys S L} (h : Reach m ok init a) : Local G P a := by
  have hstart : Local G P (⟨init, []⟩ : Sys S L) := ⟨start, by simp⟩
  refine Reach.invariant hstart ?_ ?_ h
  · intro s ls l hl hi
    refine ⟨hi.shared, fun l' hl' => ?_⟩
    rcases List.mem_cons.mp hl' with rfl | hmem
    · exact arrive s l' hl hi.shared
    · exact hi.each l' hmem
  · intro s i left l right hok hi
    have hothers : ∀ l' ∈ left ++ right, P s l' := fun l' hl' => hi.each l' (by
      simp only [List.mem_append, List.mem_cons] at hl' ⊢
      tauto)
    obtain ⟨hg, hnext, hrest⟩ := run s i l _ hok hi.shared (hi.each l (by simp)) hothers
    refine ⟨hg, fun l' hl' => ?_⟩
    rcases mem_others hl' with hl' | hl'
    · exact hnext l' hl'
    · exact hrest l' hl'

variable {l : L}

theorem nodup_tickets {T : Type} {ticket : L → Option T}
    {next : Option L} (h : ((left ++ l :: right).filterMap ticket).Nodup)
    (hnew : ∀ l' ∈ next, ∀ t ∈ ticket l', ∀ x ∈ left ++ right, t ∉ ticket x) :
    ((left ++ next.toList ++ right).filterMap ticket).Nodup := by
  have hrest : ((left ++ right).filterMap ticket).Nodup :=
    ((List.sublist_cons_self l right).append_left left |>.filterMap ticket).nodup h
  cases next with
  | none => simpa using hrest
  | some l' =>
    cases ht : ticket l' with
    | none =>
      simp only [Option.toList_some, List.append_assoc, List.singleton_append,
        List.filterMap_append, List.filterMap_cons_none ht] at hrest ⊢
      exact hrest
    | some t =>
      have hfresh : t ∉ (left ++ right).filterMap ticket := by
        intro hmem
        obtain ⟨x, hx, hxt⟩ := List.mem_filterMap.mp hmem
        exact hnew l' rfl t ht x hx hxt
      simp only [Option.toList_some, List.append_assoc, List.singleton_append,
        List.filterMap_append, List.filterMap_cons_some ht] at hrest hfresh ⊢
      exact List.nodup_middle.mpr (List.nodup_cons.mpr ⟨hfresh, hrest⟩)

def Machine.drive (m : Machine S L I) : List I → L → S → Option L × S
  | [], l, s => (some l, s)
  | i :: is, l, s =>
    match m.advance i l s with
    | (none, s') => (none, s')
    | (some l', s') => drive m is l' s'

def Machine.Along (m : Machine S L I) (ok : I → S → L → List L → Prop) (others : List L) :
    List I → L → S → Prop
  | [], _, _ => True
  | i :: is, l, s => ok i s l others ∧
    match m.advance i l s with
    | (none, _) => True
    | (some l', s') => Along m ok others is l' s'

theorem Machine.along_free (m : Machine S L I) (others : List L) (is : List I) (l : L) (s : S) :
    m.Along (fun _ _ _ _ => True) others is l s := by
  induction is generalizing l s with
  | nil => trivial
  | cons i is ih =>
    refine ⟨trivial, ?_⟩
    rcases m.advance i l s with ⟨next, s'⟩
    cases next with
    | none => trivial
    | some l' => exact ih l' s'

variable {s : S}

theorem Machine.along_one {i : I} {others : List L} (h : ok i s l others) : m.Along ok others [i] l s := by
  refine ⟨h, ?_⟩
  rcases m.advance i l s with ⟨next, s'⟩
  cases next <;> trivial

theorem Reach.resume (is : List I)
    (h : Reach m ok init ⟨s, left ++ l :: right⟩) (hok : m.Along ok (left ++ right) is l s) :
    Reach m ok init ⟨(m.drive is l s).2, left ++ (m.drive is l s).1.toList ++ right⟩ := by
  induction is generalizing s l with
  | nil => simpa [Machine.drive] using h
  | cons i is ih =>
    have hrun := Reach.step h (Step.run hok.1)
    have hrest := hok.2
    rcases hadv : m.advance i l s with ⟨next, s'⟩
    rw [hadv] at hrun hrest
    unfold Machine.drive
    rw [hadv]
    cases next with
    | none => exact hrun
    | some l' => exact ih (by simpa using hrun) hrest

variable {ls : List L}

theorem Reach.serve (is : List I) (h : Reach m ok init ⟨s, ls⟩) (hl : m.arrives l) (hok : m.Along ok ls is l s) :
    Reach m ok init ⟨(m.drive is l s).2, (m.drive is l s).1.toList ++ ls⟩ := by
  have harrived : Reach m ok init ⟨s, [] ++ l :: ls⟩ := .step h (.arrive hl)
  exact Reach.resume is harrived hok

theorem Reach.complete (is : List I) (h : Reach m ok init ⟨s, ls⟩)
    (hl : m.arrives l) (hok : m.Along ok ls is l s) (hdone : (m.drive is l s).1.isNone = true) :
    Reach m ok init ⟨(m.drive is l s).2, ls⟩ := by
  have hserved := Reach.serve is h hl hok
  rw [Option.isNone_iff_eq_none.mp hdone] at hserved
  exact hserved

theorem Reach.pause (is : List I) (h : Reach m ok init ⟨s, ls⟩)
    (hl : m.arrives l) (hok : m.Along ok ls is l s) (hsome : (m.drive is l s).1.isSome = true) :
    Reach m ok init ⟨(m.drive is l s).2, (m.drive is l s).1.get hsome :: ls⟩ := by
  have hserved := Reach.serve is h hl hok
  rw [← Option.some_get hsome] at hserved
  exact hserved

end CloudBurrow.Interleaving
