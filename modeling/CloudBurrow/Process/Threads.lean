import Mathlib

namespace CloudBurrow.Threads

variable {S L I T C : Type}

structure Sys (S L : Type) where
  shared : S
  threads : List L

inductive Move (L I : Type) where
  | enter (l : L)
  | step (i : Nat) (input : I)

structure Program (S L I : Type) where
  advance : I → L → S → List L × S

namespace Program

variable (p : Program S L I)

def move : Move L I → Sys S L → Sys S L
  | .enter l, s => ⟨s.shared, l :: s.threads⟩
  | .step i input, s =>
    match s.threads[i]? with
    | none => s
    | some l =>
      let after := p.advance input l s.shared
      ⟨after.2, s.threads.take i ++ after.1 ++ s.threads.drop (i + 1)⟩

def run (ms : List (Move L I)) (s : Sys S L) : Sys S L := ms.foldl (fun s m => p.move m s) s

@[simp] theorem run_nil (s : Sys S L) : p.run [] s = s := rfl

@[simp] theorem run_cons (m : Move L I) (ms : List (Move L I)) (s : Sys S L) :
    p.run (m :: ms) s = p.run ms (p.move m s) := rfl

theorem run_append (ms ns : List (Move L I)) (s : Sys S L) : p.run (ms ++ ns) s = p.run ns (p.run ms s) := by
  simp [run, List.foldl_append]

theorem run_snoc (ms : List (Move L I)) (m : Move L I) (s : Sys S L) :
    p.run (ms ++ [m]) s = p.move m (p.run ms s) := by
  simp [run_append]

theorem move_cases (i : Nat) (input : I) (s : Sys S L) :
    (s.threads[i]? = none ∧ p.move (.step i input) s = s) ∨
    ∃ left l right, s.threads = left ++ l :: right ∧ s.threads[i]? = some l ∧ p.move (.step i input) s =
        ⟨(p.advance input l s.shared).2, left ++ (p.advance input l s.shared).1 ++ right⟩ := by
  cases h : s.threads[i]? with
  | none => exact .inl ⟨rfl, by simp [move, h]⟩
  | some l =>
    refine .inr ⟨s.threads.take i, l, s.threads.drop (i + 1), ?_, rfl, by simp [move, h]⟩
    obtain ⟨hi, rfl⟩ := List.getElem?_eq_some_iff.mp h
    rw [List.cons_getElem_drop_succ, List.take_append_drop]

def Along (ok : Move L I → Sys S L → Prop) : List (Move L I) → Sys S L → Prop
  | [], _ => True
  | m :: ms, s => ok m s ∧ Along ok ms (p.move m s)

instance instDecidableAlong (ok : Move L I → Sys S L → Prop) [∀ m s, Decidable (ok m s)] :
    ∀ ms s, Decidable (p.Along ok ms s)
  | [], _ => .isTrue trivial
  | m :: ms, s =>
    have := instDecidableAlong ok ms (p.move m s)
    inferInstanceAs (Decidable (ok m s ∧ p.Along ok ms (p.move m s)))

variable {p} {ok : Move L I → Sys S L → Prop}
variable {ms : List (Move L I)} {s : Sys S L}

theorem along_append {ns : List (Move L I)} :
    p.Along ok (ms ++ ns) s ↔ p.Along ok ms s ∧ p.Along ok ns (p.run ms s) := by
  induction ms generalizing s with
  | nil => simp [Along]
  | cons m ms ih => simp [Along, ih, and_assoc]

theorem Along.at_move {before after : List (Move L I)} {m : Move L I}
    (h : p.Along ok (before ++ m :: after) s) : p.Along ok before s ∧ ok m (p.run before s) :=
  ⟨(along_append.mp h).1, (along_append.mp h).2.1⟩

theorem Along.mono {ok' : Move L I → Sys S L → Prop} (h : ∀ m s, ok m s → ok' m s) (hms : p.Along ok ms s) : p.Along ok' ms s := by
  induction ms generalizing s with
  | nil => trivial
  | cons m ms ih => exact ⟨h m s hms.1, ih hms.2⟩

theorem Along.with {Inv : Sys S L → Prop} (h : ∀ ns, p.Along ok ns s → Inv (p.run ns s)) (hms : p.Along ok ms s) :
    p.Along (fun m s => ok m s ∧ Inv s) ms s := by
  induction ms generalizing s with
  | nil => trivial
  | cons m ms ih =>
    exact ⟨⟨hms.1, h [] trivial⟩, ih (fun ns hns => h (m :: ns) ⟨hms.1, hns⟩) hms.2⟩

theorem invariant {Inv : Sys S L → Prop} (enter : ∀ s l, ok (.enter l) s → Inv s → Inv ⟨s.shared, l :: s.threads⟩)
    (step : ∀ s i input left l right, ok (.step i input) ⟨s, left ++ l :: right⟩ →
      (left ++ l :: right)[i]? = some l → Inv ⟨s, left ++ l :: right⟩ →
      Inv ⟨(p.advance input l s).2, left ++ (p.advance input l s).1 ++ right⟩) (hms : p.Along ok ms s) (hs : Inv s) :
    Inv (p.run ms s) := by
  induction ms generalizing s with
  | nil => exact hs
  | cons m ms ih =>
    suffices hmove : Inv (p.move m s) from ih hms.2 hmove
    cases m with
    | enter l => exact enter s l hms.1 hs
    | step i input =>
      rcases p.move_cases i input s with ⟨_, heq⟩ | ⟨left, l, right, hsplit, hget, heq⟩
      · rw [heq]
        exact hs
      · obtain ⟨shared, threads⟩ := s
        obtain rfl : threads = left ++ l :: right := hsplit
        rw [heq]
        exact step shared i input left l right hms.1 hget hs

theorem mem_replaced {left right ls : List L} {l' : L} (h : l' ∈ left ++ ls ++ right) :
    l' ∈ ls ∨ l' ∈ left ++ right := by
  simp only [List.append_assoc, List.mem_append] at h ⊢
  tauto

theorem mem_kept {left right : List L} {l l' : L} (h : l' ∈ left ++ right) : l' ∈ left ++ l :: right := by
  simp only [List.mem_append, List.mem_cons] at h ⊢
  tauto

theorem each {G : S → Prop} {P : S → L → Prop} (enter : ∀ s l, ok (.enter l) s → G s.shared → P s.shared l)
    (step : ∀ s i input left l right, ok (.step i input) ⟨s, left ++ l :: right⟩ →
      (left ++ l :: right)[i]? = some l → G s → P s l → (∀ l' ∈ left ++ right, P s l') →
      G (p.advance input l s).2 ∧ (∀ l' ∈ (p.advance input l s).1, P (p.advance input l s).2 l') ∧
        ∀ l' ∈ left ++ right, P (p.advance input l s).2 l') (hms : p.Along ok ms s) (hs : G s.shared)
    (hthreads : ∀ l ∈ s.threads, P s.shared l) :
    G (p.run ms s).shared ∧ ∀ l ∈ (p.run ms s).threads, P (p.run ms s).shared l := by
  let Inv : Sys S L → Prop := fun s => G s.shared ∧ ∀ l ∈ s.threads, P s.shared l
  have hstart : Inv s := ⟨hs, hthreads⟩
  refine invariant ?_ ?_ hms hstart
  · rintro s l hok ⟨hg, hp⟩
    refine ⟨hg, fun l' hl' => ?_⟩
    rcases List.mem_cons.mp hl' with rfl | hmem
    · exact enter s l' hok hg
    · exact hp l' hmem
  · rintro s i input left l right hok hget ⟨hg, hp⟩
    have hothers : ∀ l' ∈ left ++ right, P s l' := fun l' hl' => hp l' (mem_kept hl')
    obtain ⟨hg', hnew, hrest⟩ := step s i input left l right hok hget hg (hp l (by simp)) hothers
    refine ⟨hg', fun l' hl' => ?_⟩
    rcases mem_replaced hl' with hl' | hl'
    · exact hnew l' hl'
    · exact hrest l' hl'

end Program

inductive Change (T : Type) where
  | keep (o : Option T)
  | take (t : T)
  | drop (t : T)

namespace Change

def before : Change T → Option T
  | keep o => o
  | take _ => none
  | drop t => some t

def after : Change T → List T
  | keep o => o.toList
  | take t => [t]
  | drop _ => []

variable [DecidableEq T] [DecidableEq C]

def marks : Change T → Finset T → Finset T
  | keep _, m => m
  | take t, m => insert t m
  | drop t, m => m.erase t

def counts (kind : T → C) : Change T → (C → Int) → C → Int
  | keep _, n => n
  | take t, n => Function.update n (kind t) (n (kind t) + 1)
  | drop t, n => Function.update n (kind t) (n (kind t) - 1)

def Free : Change T → Finset T → Prop
  | take t, m => t ∉ m
  | _, _ => True

end Change

section Leases

structure Leased (marks : Finset T) (held : List T) : Prop where
  once : held.Nodup
  marked : ∀ t, t ∈ marks ↔ t ∈ held

variable {m : Finset T} {left right : List T}

theorem Leased.alone {t : T} (h : Leased m (left ++ [t] ++ right)) : t ∉ left ++ right := by
  have hperm : (left ++ [t] ++ right).Perm (t :: (left ++ right)) := by simp
  exact (List.nodup_cons.mp (hperm.nodup_iff.mp h.once)).1

theorem Leased.empty : Leased (∅ : Finset T) [] := ⟨List.nodup_nil, by simp⟩

variable [DecidableEq T]
variable {held : List T}

theorem Leased.acquire {t : T} (h : Leased m (left ++ held ++ right)) (hfree : t ∉ m) :
    Leased (insert t m) (left ++ (held ++ [t]) ++ right) := by
  have hnot : t ∉ left ++ held ++ right := fun hmem => hfree ((h.marked t).mpr hmem)
  have hperm : (left ++ (held ++ [t]) ++ right).Perm (t :: (left ++ held ++ right)) := by
    rw [← List.append_assoc left, List.append_assoc _ [t]]
    exact List.perm_middle
  refine ⟨hperm.nodup_iff.mpr (List.nodup_cons.mpr ⟨hnot, h.once⟩), fun t' => ?_⟩
  rw [hperm.mem_iff, Finset.mem_insert, List.mem_cons, h.marked t']

theorem Leased.release (h : Leased m (left ++ held ++ right)) : Leased (m \ held.toFinset) (left ++ [] ++ right) := by
  have honce := h.once
  rw [List.append_nil]
  rw [List.nodup_append, List.nodup_append] at honce
  obtain ⟨⟨hleft, -, hlh⟩, hright, hall⟩ := honce
  refine ⟨List.nodup_append.mpr ⟨hleft, hright, fun a ha => hall a (List.mem_append_left _ ha)⟩, fun t => ?_⟩
  rw [Finset.mem_sdiff, h.marked t, List.mem_toFinset]
  simp only [List.mem_append]
  constructor
  · tauto
  · rintro (hl | hr)
    · exact ⟨Or.inl (Or.inl hl), fun hheld => hlh t hl t hheld rfl⟩
    · exact ⟨Or.inr hr, fun hheld => hall t (List.mem_append_right _ hheld) t hr rfl⟩

theorem Leased.change {c : Change T} (h : Leased m (left ++ c.before.toList ++ right)) (hfree : c.Free m) :
    Leased (c.marks m) (left ++ c.after ++ right) := by
  cases c with
  | keep o => exact h
  | take t =>
    have hheld : Leased m (left ++ right) := by simpa [Change.before] using h
    have hnot : t ∉ left ++ right := fun hmem => hfree ((hheld.marked t).mpr hmem)
    have hperm : (left ++ [t] ++ right).Perm (t :: (left ++ right)) := by simp
    refine ⟨hperm.nodup_iff.mpr (List.nodup_cons.mpr ⟨hnot, hheld.once⟩), fun t' => ?_⟩
    change t' ∈ insert t m ↔ t' ∈ left ++ [t] ++ right
    rw [hperm.mem_iff, Finset.mem_insert, List.mem_cons, hheld.marked t']
  | drop t =>
    have hperm : (left ++ [t] ++ right).Perm (t :: (left ++ right)) := by simp
    have hheld : Leased m (left ++ [t] ++ right) := h
    obtain ⟨hnot, honce⟩ := List.nodup_cons.mp (hperm.nodup_iff.mp hheld.once)
    refine ⟨by simpa [Change.after] using honce, fun t' => ?_⟩
    change t' ∈ m.erase t ↔ t' ∈ left ++ [] ++ right
    rw [Finset.mem_erase, hheld.marked t', hperm.mem_iff, List.append_nil]
    constructor
    · rintro ⟨hne, hmem⟩
      exact (List.mem_cons.mp hmem).resolve_left hne
    · intro hmem
      exact ⟨fun heq => hnot (heq ▸ hmem), List.mem_cons_of_mem _ hmem⟩

variable [DecidableEq C]

def Counted (kind : T → C) (counts : C → Int) (held : List T) : Prop :=
  ∀ c, counts c = (held.map kind).count c

omit [DecidableEq T] in
theorem Counted.change {kind : T → C} {counts : C → Int} {c : Change T}
    (h : Counted kind counts (left ++ c.before.toList ++ right)) :
    Counted kind (c.counts kind counts) (left ++ c.after ++ right) := by
  cases c with
  | keep o => exact h
  | take t | drop t =>
    intro k
    have hk := h k
    by_cases heq : k = kind t
    · subst heq
      simp [Change.before, Change.after, Change.counts] at hk ⊢
      omega
    · have hne : kind t ≠ k := fun h' => heq h'.symm
      simp [Change.before, Change.after, Change.counts, heq, hne] at hk ⊢
      omega

end Leases

end CloudBurrow.Threads
