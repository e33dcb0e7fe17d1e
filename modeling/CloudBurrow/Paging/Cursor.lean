import Mathlib

namespace CloudBurrow.Paging.Cursor

variable {α τ : Type}

structure Listing (α τ : Type) where
  entries : List α
  mark : α → τ
  past : τ → α → Bool

namespace Listing
variable (l : Listing α τ)

def shows (t : Option τ) (x : α) : Bool := t.all fun t => l.past t x

def rest (t : Option τ) : List α := l.entries.filter (l.shows t)

def page (size : Nat) (t : Option τ) : List α × Option τ :=
  let found := (l.rest t).take size
  (found, if size < (l.rest t).length then found.getLast?.map l.mark else none)

def follow (size : Nat) : Nat → Option τ → Option (List (List α))
  | 0, _ => none
  | fuel + 1, t =>
    match l.page size t with
    | (found, none) => some [found]
    | (found, some next) => (follow size fuel (some next)).map (found :: ·)

def Complete (size : Nat) : Prop :=
  ∃ fuel pages, l.follow size fuel none = some pages ∧ pages.flatten = l.entries

def Aligned (size : Nat) : Prop :=
  ∀ front y back, l.entries = front ++ y :: back → back ≠ [] → size ∣ front.length + 1 →
    l.rest (some (l.mark y)) = back

end Listing

def chase {κ β : Type} (serve : κ → Option (β × Option κ)) : Nat → κ → Option (List β)
  | 0, _ => none
  | fuel + 1, c =>
    match serve c with
    | none => none
    | some (found, none) => some [found]
    | some (found, some next) => (chase serve fuel next).map (found :: ·)

theorem chase_unique {κ β : Type} {serve : κ → Option (β × Option κ)} {m n : Nat} {c : κ}
    {xs ys : List β} (hx : chase serve m c = some xs) (hy : chase serve n c = some ys) : xs = ys := by
  induction m generalizing n c xs ys with
  | zero => cases hx
  | succ m ih =>
    cases n with
    | zero => cases hy
    | succ n =>
      rw [chase] at hx hy
      rcases hserve : serve c with _ | ⟨found, next⟩
      · simp [hserve] at hx
      · cases next with
        | none =>
          simp only [hserve, Option.some.injEq] at hx hy
          rw [← hx, ← hy]
        | some next =>
          simp only [hserve, Option.map_eq_some_iff] at hx hy
          obtain ⟨xs', hxs, rfl⟩ := hx
          obtain ⟨ys', hys, rfl⟩ := hy
          rw [ih hxs hys]

def gather (skip : α → Bool) (max : Nat) : List α → List α → List α × Bool
  | items, [] => (items, false)
  | items, x :: xs =>
    if skip x then gather skip max items xs
    else if items.length = max then (items, true)
    else gather skip max (items ++ [x]) xs

theorem gather_append {skip : α → Bool} {max : Nat} (xs items : List α) (h : items.length ≤ max) :
    gather skip max items xs = (items ++ (xs.filter fun x => !skip x).take (max - items.length),
        decide (max - items.length < (xs.filter fun x => !skip x).length)) := by
  induction xs generalizing items with
  | nil => simp [gather]
  | cons x xs ih =>
    rw [gather]
    by_cases hskip : skip x = true
    · rw [if_pos hskip, ih items h, List.filter_cons_of_neg (by simp [hskip])]
    · rw [if_neg hskip, List.filter_cons_of_pos (by simp [hskip])]
      by_cases hfull : items.length = max
      · rw [if_pos hfull]
        simp [hfull]
      · have hroom : (items ++ [x]).length ≤ max := by
          rw [List.length_append, List.length_singleton]
          omega
        have hone : max - items.length = max - (items ++ [x]).length + 1 := by
          rw [List.length_append, List.length_singleton]
          omega
        rw [if_neg hfull, ih _ hroom, hone, List.take_succ_cons, List.length_cons]
        simp

theorem gather_eq (skip : α → Bool) (max : Nat) (xs : List α) : gather skip max [] xs =
      ((xs.filter fun x => !skip x).take max, decide (max < (xs.filter fun x => !skip x).length)) := by
  simpa using gather_append xs [] (Nat.zero_le max)

namespace Listing
variable {l : Listing α τ} {size : Nat}

theorem rest_none : l.rest none = l.entries := by
  simp [rest, shows]

def Issued (l : Listing α τ) (t : Option τ) : Prop := ∀ c ∈ t, ∃ y ∈ l.entries, l.mark y = c

theorem issued_none : l.Issued none := by
  simp [Issued]

variable {t : Option τ}

theorem issued_page : l.Issued (l.page size t).2 := by
  intro c hc
  rw [page] at hc
  split_ifs at hc
  · obtain ⟨y, hy, rfl⟩ := Option.mem_map.mp hc
    have hfound : y ∈ (l.rest t).take size := List.mem_of_getLast? hy
    exact ⟨y, (List.mem_filter.mp (List.mem_of_mem_take hfound)).1, rfl⟩
  · cases hc

theorem chase_eq {κ β : Type} {serve : κ → Option (β × Option κ)} {cursor : Option τ → κ} {view : List α → β}
    (hserve : ∀ t, l.Issued t → serve (cursor t) =
      some (view (l.page size t).1, (l.page size t).2.map fun c => cursor (some c)))
    (fuel : Nat) (ht : l.Issued t) :
    chase serve fuel (cursor t) = (l.follow size fuel t).map (List.map view) := by
  induction fuel generalizing t with
  | zero => rfl
  | succ fuel ih =>
    have hissued : l.Issued (l.page size t).2 := issued_page
    rw [chase, hserve t ht, follow]
    rcases hpage : l.page size t with ⟨found, next⟩
    rw [hpage] at hissued
    cases next with
    | none => rfl
    | some c =>
      simp only [Option.map_some]
      rw [ih hissued, Option.map_map, Option.map_map]
      rfl

theorem page_last (h : (l.rest t).length ≤ size) : l.page size t = (l.rest t, none) := by
  simp [page, not_lt.mpr h, List.take_of_length_le h]

theorem page_more {front : List α} {y : α} (h : size < (l.rest t).length)
    (hfound : (l.rest t).take size = front ++ [y]) :
    l.page size t = (front ++ [y], some (l.mark y)) := by
  simp [page, h, hfound]

variable {fuel : Nat}

theorem follow_last (h : (l.rest t).length ≤ size) : l.follow size (fuel + 1) t = some [l.rest t] := by
  rw [follow, page_last h]

theorem follow_more {front : List α} {y : α}
    (h : size < (l.rest t).length) (hfound : (l.rest t).take size = front ++ [y]) :
    l.follow size (fuel + 1) t = (l.follow size fuel (some (l.mark y))).map ((front ++ [y]) :: ·) := by
  rw [follow, page_more h hfound]

variable {xs : List α}

theorem take_eq_append_last (hsize : 0 < size) (h : size < xs.length) :
    ∃ front y, xs.take size = front ++ [y] ∧ front.length + 1 = size := by
  have hlength : (xs.take size).length = size := by
    rw [List.length_take]
    omega
  have hne : xs.take size ≠ [] := by
    intro hnil
    rw [hnil, List.length_nil] at hlength
    omega
  refine ⟨(xs.take size).dropLast, (xs.take size).getLast hne, (List.dropLast_append_getLast hne).symm, ?_⟩
  rw [List.length_dropLast]
  omega

theorem drop_ne_nil (h : size < xs.length) : xs.drop size ≠ [] := by
  intro hnil
  have hlength := congrArg List.length hnil
  rw [List.length_drop, List.length_nil] at hlength
  omega

variable {todo : List α}

theorem follow_of_aligned (hsize : 0 < size) (haligned : l.Aligned size) (done : List α) (hfuel : todo.length < fuel)
    (hentries : l.entries = done ++ todo) (hdvd : size ∣ done.length) (hrest : l.rest t = todo) :
    ∃ pages, l.follow size fuel t = some pages ∧ pages.flatten = todo := by
  induction fuel generalizing done todo t with
  | zero => exact absurd hfuel (Nat.not_lt_zero _)
  | succ fuel ih =>
    by_cases hlast : todo.length ≤ size
    · exact ⟨[todo], by rw [follow_last (hrest ▸ hlast), hrest], by simp⟩
    · have hmore : size < todo.length := not_le.mp hlast
      obtain ⟨front, y, hfound, hlength⟩ := take_eq_append_last hsize hmore
      have hsplit : todo = front ++ [y] ++ todo.drop size := by
        rw [← hfound, List.take_append_drop]
      have hentries' : l.entries = (done ++ front) ++ y :: todo.drop size := by
        rw [hentries]
        conv_lhs => rw [hsplit]
        simp
      have hdvd' : size ∣ (done ++ front).length + 1 := by
        rw [List.length_append, Nat.add_assoc, hlength]
        exact Nat.dvd_add_self_right.mpr hdvd
      have hnext := haligned (done ++ front) y (todo.drop size) hentries' (drop_ne_nil hmore) hdvd'
      have hshorter : (todo.drop size).length < fuel := by
        rw [List.length_drop]
        omega
      obtain ⟨pages, hpages, hflatten⟩ := ih (done ++ front ++ [y]) hshorter
        (by rw [hentries']; simp) (by rwa [List.length_append, List.length_singleton]) hnext
      refine ⟨(front ++ [y]) :: pages, ?_, by rw [List.flatten_cons, hflatten, ← hsplit]⟩
      rw [follow_more (hrest ▸ hmore) (by rw [hrest, hfound]), hpages]
      rfl

theorem complete_of_aligned (hsize : 0 < size) (haligned : l.Aligned size) : l.Complete size := by
  obtain ⟨pages, hpages, hflatten⟩ := follow_of_aligned hsize haligned []
    (Nat.lt_succ_self l.entries.length) rfl (Nat.dvd_zero _) rest_none
  exact ⟨_, pages, hpages, hflatten⟩

def Onward (l : Listing α τ) : Prop :=
  ∀ (t : Option τ) (y x : α), [y, x].Sublist l.entries → l.shows t y = true →
    l.past (l.mark y) x = true → l.shows t x = true

theorem filter_done_eq_nil {done found : List α} {p : α → Bool} (hne : found ≠ [])
    (hnodup : (done ++ (found ++ todo)).Nodup)
    (hpage : found <+: (done ++ (found ++ todo)).filter p) : done.filter p = [] := by
  by_contra hdone
  obtain ⟨z, zs, hz⟩ := List.exists_cons_of_ne_nil hdone
  obtain ⟨w, ws, hw⟩ := List.exists_cons_of_ne_nil hne
  rw [List.filter_append, hz, hw, List.cons_append, List.cons_prefix_cons] at hpage
  have hmem : z ∈ done := (List.mem_filter.mp (hz ▸ List.mem_cons_self)).1
  have hfound : z ∈ found ++ todo := by
    rw [hw, ← hpage.1]
    exact List.mem_cons_self
  exact (List.nodup_append.mp hnodup).2.2 z hmem z hfound rfl

theorem filter_found_eq {found rest : List α} {p : α → Bool}
    (h : found <+: xs.filter p) : (found ++ rest).filter p = found ++ rest.filter p := by
  rw [List.filter_append, List.filter_eq_self.mpr]
  intro x hx
  exact (List.mem_filter.mp (h.subset hx)).2

theorem aligned_of_follow (hsize : 0 < size) (hnodup : l.entries.Nodup) (honward : l.Onward) {done : List α} {pages : List (List α)}
    (hentries : l.entries = done ++ todo) (hdvd : size ∣ done.length)
    (hpages : l.follow size fuel t = some pages) (hflatten : pages.flatten = todo) :
    l.rest t = todo ∧ ∀ front y back, todo = front ++ y :: back → back ≠ [] →
      size ∣ done.length + front.length + 1 → l.rest (some (l.mark y)) = back := by
  induction fuel generalizing done todo t pages with
  | zero => cases hpages
  | succ fuel ih =>
    by_cases hlast : (l.rest t).length ≤ size
    · rw [follow_last hlast, Option.some.injEq] at hpages
      have hrest : l.rest t = todo := by
        rw [← hflatten, ← hpages, List.flatten_singleton]
      refine ⟨hrest, fun front y back htodo hback hdvd' => ?_⟩
      -- a page boundary inside what fits on one page
      have hlength := congrArg List.length htodo
      rw [List.length_append, List.length_cons] at hlength
      have hpos : 0 < back.length := List.length_pos_iff.mpr hback
      rw [hrest] at hlast
      rw [Nat.add_assoc, Nat.dvd_add_right hdvd] at hdvd'
      have hle := Nat.le_of_dvd (Nat.succ_pos _) hdvd'
      omega
    · have hmore : size < (l.rest t).length := not_le.mp hlast
      obtain ⟨front, y, hfound, hlength⟩ := take_eq_append_last hsize hmore
      rw [follow_more hmore hfound, Option.map_eq_some_iff] at hpages
      obtain ⟨pages', hpages', rfl⟩ := hpages
      rw [List.flatten_cons] at hflatten
      have hentries' : l.entries = (done ++ (front ++ [y])) ++ pages'.flatten := by
        rw [hentries, ← hflatten, List.append_assoc done]
      have hdvd' : size ∣ (done ++ (front ++ [y])).length := by
        rw [List.length_append, List.length_append, List.length_singleton, hlength]
        exact Nat.dvd_add_self_right.mpr hdvd
      obtain ⟨hnext, hinside⟩ := ih hentries' hdvd' hpages' rfl
      have hpage : front ++ [y] <+: l.rest t := hfound ▸ List.take_prefix _ _
      have hrest : l.rest t = todo := by
        rw [List.append_assoc] at hentries'
        rw [rest, hentries'] at hpage
        have hnone : done.filter (l.shows t) = [] :=
          filter_done_eq_nil (by simp) (hentries' ▸ hnodup) hpage
        have hlater : pages'.flatten.filter (l.shows t) = pages'.flatten := by
          refine List.filter_eq_self.mpr fun x hx => honward t y x ?_ ?_ ?_
          · rw [hentries']
            have hpair : [y, x].Sublist ([y] ++ pages'.flatten) :=
              (List.singleton_sublist.mpr hx).cons_cons y
            refine (hpair.trans ?_).trans (List.sublist_append_right _ _)
            rw [List.append_assoc]
            exact List.sublist_append_right _ _
          · exact (List.mem_filter.mp (hpage.subset (by simp))).2
          · rw [← hnext] at hx
            exact (List.mem_filter.mp hx).2
        rw [rest, hentries', List.filter_append, hnone, List.nil_append, filter_found_eq hpage,
          hlater, hflatten]
      refine ⟨hrest, fun front' y' back htodo hback hboundary => ?_⟩
      rw [Nat.add_assoc, Nat.dvd_add_right hdvd] at hboundary
      have hle := Nat.le_of_dvd (Nat.succ_pos _) hboundary
      rw [← hflatten] at htodo
      rcases hle.eq_or_lt with heq | hlt
      · -- the boundary at the end of this page
        have hlengths : (front ++ [y]).length = (front' ++ [y']).length := by
          rw [List.length_append, List.length_append, List.length_singleton, List.length_singleton]
          omega
        have hsame : front ++ [y] ++ pages'.flatten = front' ++ [y'] ++ back := by
          rw [htodo]
          simp
        obtain ⟨hfront, hlater⟩ := List.append_inj hsame hlengths
        obtain ⟨-, hy⟩ := List.append_inj' hfront rfl
        rw [← hlater, ← List.singleton_inj.mp hy]
        exact hnext
      · -- a boundary of a later page
        have hprefix : front ++ [y] <+: front' := by
          refine List.prefix_of_prefix_length_le (List.prefix_append _ pages'.flatten)
            (htodo ▸ List.prefix_append _ _) ?_
          rw [List.length_append, List.length_singleton]
          omega
        obtain ⟨front'', rfl⟩ := hprefix
        rw [List.append_assoc (front ++ [y]), List.append_cancel_left_eq] at htodo
        refine hinside front'' y' back htodo hback ?_
        rw [List.length_append] at hboundary
        rw [Nat.add_assoc, Nat.dvd_add_right hdvd']
        rwa [Nat.add_assoc, List.length_append, List.length_singleton, hlength,
          Nat.dvd_add_right (dvd_refl size)] at hboundary

theorem complete_iff_aligned (hsize : 0 < size) (hnodup : l.entries.Nodup) (honward : l.Onward) :
    l.Complete size ↔ l.Aligned size := by
  constructor
  · rintro ⟨fuel, pages, hpages, hflatten⟩ front y back hentries hback hdvd
    have hall := (aligned_of_follow hsize hnodup honward (List.nil_append _).symm (by simp) hpages hflatten).2
    exact hall front y back hentries hback (by simpa using hdvd)
  · exact complete_of_aligned hsize

theorem aligned_of_ordered (hself : ∀ y ∈ l.entries, l.past (l.mark y) y = false)
    (hordered : l.entries.Pairwise fun y x =>
      l.past (l.mark y) x = true ∧ l.past (l.mark x) y = false) : l.Aligned size := by
  intro front y back hentries _ _
  rw [hentries] at hordered
  obtain ⟨-, hback, hfront⟩ := List.pairwise_append.mp hordered
  have hshows : l.shows (some (l.mark y)) = l.past (l.mark y) := rfl
  rw [rest, hshows, hentries, List.filter_append, List.filter_cons_of_neg,
    List.filter_eq_nil_iff.mpr, List.filter_eq_self.mpr, List.nil_append]
  · exact fun x hx => ((List.pairwise_cons.mp hback).1 x hx).1
  · intro x hx
    rw [(hfront x hx y List.mem_cons_self).2]
    exact Bool.false_ne_true
  · rw [hself y (by simp [hentries])]
    exact Bool.false_ne_true

end Listing

end CloudBurrow.Paging.Cursor
