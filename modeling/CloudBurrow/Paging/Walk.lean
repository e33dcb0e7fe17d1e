import CloudBurrow.Paging.Page

namespace CloudBurrow.Paging

open Utf8

def walk (scope : Bytes) : List (List Bytes × Int) → Bytes →
    Except TokenError (List (List Bytes) × Option Bytes)
  | [], token => pure ([], some token)
  | visit :: rest, token => do
    let (found, next) ← page scope visit.1 token visit.2
    if next = [] then pure ([found], none)
    else
      let (pages, left) ← walk scope rest next
      pure (found :: pages, left)

def Resumes (scope token after : Bytes) : Prop := decodeToken scope token = .ok after

theorem resumes_first (scope : Bytes) : Resumes scope [] [] := by
  rw [Resumes, decodeToken, if_pos rfl]

theorem resumes_encodeToken {scope after : Bytes} (hscope : Valid scope) (hafter : Valid after) :
    Resumes scope (encodeToken scope after) after := by
  rw [Resumes, decodeToken_encodeToken, toValid_of_valid scope hscope, toValid_of_valid after hafter,
    if_neg (not_not.mpr rfl)]

section Steps

variable {scope token after : Bytes} {keys : List Bytes} {size : Int}

theorem walk_last (h : Listing keys) (htoken : Resumes scope token after)
    (hlast : (later keys after).length ≤ clampPageSize size) (rest : List (List Bytes × Int)) :
    walk scope ((keys, size) :: rest) token = .ok ([later keys after], none) := by
  rw [walk, page_eq h htoken, if_neg (not_lt.mpr hlast), List.take_of_length_le hlast]
  rfl

theorem exists_cursor (hmore : clampPageSize size < (later keys after).length) :
    ∃ cursor, ((later keys after).take (clampPageSize size)).getLast? = some cursor ∧ cursor ∈ keys ∧
      after < cursor := by
  have hsize := one_le_clampPageSize size
  have hne : (later keys after).take (clampPageSize size) ≠ [] := by
    intro hnil
    have hlength := congrArg List.length hnil
    rw [List.length_take, List.length_nil] at hlength
    omega
  refine ⟨_, List.getLast?_eq_some_getLast hne, ?_⟩
  exact mem_later.mp (List.mem_of_mem_take (List.getLast_mem hne))

theorem walk_more (hscope : Valid scope) (h : Listing keys) (htoken : Resumes scope token after)
    (hmore : clampPageSize size < (later keys after).length) :
    ∃ cursor next, ((later keys after).take (clampPageSize size)).getLast? = some cursor ∧
      after < cursor ∧ Resumes scope next cursor ∧ ∀ rest, walk scope ((keys, size) :: rest) token =
        (walk scope rest next).map fun r => ((later keys after).take (clampPageSize size) :: r.1, r.2) := by
  obtain ⟨cursor, hcursor, hmem, hlt⟩ := exists_cursor hmore
  refine ⟨cursor, encodeToken scope cursor, hcursor, hlt, resumes_encodeToken hscope (h.valid cursor hmem),
    fun rest => ?_⟩
  rw [walk, page_eq h htoken, if_pos hmore, hcursor]
  simp only [bind, Except.bind, Option.getD_some, if_neg (encodeToken_ne_nil scope cursor)]
  cases walk scope rest (encodeToken scope cursor) <;> rfl

end Steps

structure Walked (visits : List (List Bytes × Int)) (after : Bytes) (pages : List (List Bytes))
    (left : Option Bytes) : Prop where
  begun : left = none → pages ≠ []
  ascending : pages.flatten.Pairwise (· < ·)
  past : ∀ k ∈ pages.flatten, after < k
  all : left = none → ∀ k, after < k → (∀ v ∈ visits.take pages.length, k ∈ v.1) → k ∈ pages.flatten

theorem Walked.last {keys : List Bytes} {after : Bytes} {size : Int} {rest : List (List Bytes × Int)}
    (h : Listing keys) : Walked ((keys, size) :: rest) after [later keys after] none := by
  refine ⟨fun _ => List.cons_ne_nil _ _, ?_, fun k hk => ?_, fun _ k hlt hk => ?_⟩
  · simpa using later_ascending h.nodup after
  · rw [List.flatten_singleton] at hk
    exact (mem_later.mp hk).2
  · rw [List.flatten_singleton]
    exact mem_later.mpr ⟨hk (keys, size) (by simp), hlt⟩

theorem Walked.cons {keys found : List Bytes} {after cursor : Bytes} {size : Int}
    {rest : List (List Bytes × Int)} {pages : List (List Bytes)} {left : Option Bytes} {n : Nat}
    (h : Listing keys) (hfound : found = (later keys after).take n) (hcursor : found.getLast? = some cursor)
    (hlt : after < cursor) (hwalk : Walked rest cursor pages left) :
    Walked ((keys, size) :: rest) after (found :: pages) left := by
  have hascending : found.Pairwise (· < ·) := hfound ▸ (later_ascending h.nodup after).take
  obtain ⟨front, rfl⟩ := List.getLast?_eq_some_iff.mp hcursor
  have hle : ∀ k ∈ front ++ [cursor], k < cursor ∨ k = cursor := by
    intro k hk
    rcases List.mem_append.mp hk with hfront | hlast
    · exact Or.inl ((List.pairwise_append.mp hascending).2.2 k hfront cursor (by simp))
    · exact Or.inr (List.mem_singleton.mp hlast)
  refine ⟨fun _ => List.cons_ne_nil _ _, ?_, fun k hk => ?_, fun hleft k hk hall => ?_⟩
  · rw [List.flatten_cons, List.pairwise_append]
    refine ⟨hascending, hwalk.ascending, fun a ha b hb => ?_⟩
    rcases hle a ha with hlt' | rfl
    · exact List.lt_trans hlt' (hwalk.past b hb)
    · exact hwalk.past b hb
  · rw [List.flatten_cons] at hk
    rcases List.mem_append.mp hk with hpage | hrest
    · exact (mem_later.mp (List.mem_of_mem_take (hfound ▸ hpage))).2
    · exact List.lt_trans hlt (hwalk.past k hrest)
  · rw [List.flatten_cons, List.mem_append]
    by_cases hcut : cursor < k
    · refine Or.inr (hwalk.all hleft k hcut fun v hv => hall v ?_)
      rw [List.length_cons, List.take_succ_cons]
      exact List.mem_cons_of_mem _ hv
    · left
      have hlater : k ∈ later keys after := mem_later.mpr ⟨hall (keys, size) (by simp), hk⟩
      rw [← List.take_append_drop n (later keys after), ← hfound, List.mem_append] at hlater
      refine hlater.resolve_right fun hdrop => hcut ?_
      have hall' := later_ascending h.nodup after
      rw [← List.take_append_drop n (later keys after), ← hfound] at hall'
      exact (List.pairwise_append.mp hall').2.2 cursor (by simp) k hdrop

theorem walk_walked {scope : Bytes} (hscope : Valid scope) {visits : List (List Bytes × Int)}
    (hvisits : ∀ v ∈ visits, Listing v.1) {token after : Bytes} (htoken : Resumes scope token after) :
    ∃ pages left, walk scope visits token = .ok (pages, left) ∧ Walked visits after pages left := by
  induction visits generalizing token after with
  | nil =>
    refine ⟨[], some token, rfl, ?_, List.Pairwise.nil, ?_, ?_⟩
    · intro hleft
      cases hleft
    · simp
    · intro hleft
      cases hleft
  | cons visit rest ih =>
    obtain ⟨keys, size⟩ := visit
    obtain ⟨hlisting, hrest⟩ := List.forall_mem_cons.mp hvisits
    by_cases hmore : clampPageSize size < (later keys after).length
    · obtain ⟨cursor, next, hcursor, hlt, hnext, hwalk⟩ := walk_more hscope hlisting htoken hmore
      obtain ⟨pages, left, hpages, hwalked⟩ := ih hrest hnext
      refine ⟨_, left, ?_, Walked.cons hlisting rfl hcursor hlt hwalked⟩
      rw [hwalk, hpages]
      rfl
    · exact ⟨_, none, walk_last hlisting htoken (not_lt.mp hmore) rest, Walked.last hlisting⟩

def visitsFrom (listing : Nat → List Bytes) (size : Nat → Int) (i n : Nat) : List (List Bytes × Int) :=
  (List.range' i n).map fun j => (listing j, size j)

theorem visitsFrom_succ (listing : Nat → List Bytes) (size : Nat → Int) (i n : Nat) :
    visitsFrom listing size i (n + 1) = (listing i, size i) :: visitsFrom listing size (i + 1) n := by
  rw [visitsFrom, List.range'_succ, List.map_cons]
  rfl

section Ending

variable {scope : Bytes} {listing : Nat → List Bytes} {size : Nat → Int}

theorem length_later_lt {keys keys' : List Bytes} {after cursor : Bytes} {n : Nat} (h : Listing keys)
    (h' : Listing keys') (hsub : ∀ k ∈ keys', k ∈ keys)
    (hcursor : ((later keys after).take n).getLast? = some cursor) :
    (later keys' cursor).length < (later keys after).length := by
  have hascending := later_ascending h.nodup after
  rw [← List.take_append_drop n (later keys after)] at hascending
  have hmem := List.mem_of_getLast? hcursor
  have hcut : ∀ k ∈ later keys' cursor, k ∈ (later keys after).drop n := by
    intro k hk
    obtain ⟨hkeys, hlt⟩ := mem_later.mp hk
    have hafter : after < cursor := (mem_later.mp (List.mem_of_mem_take hmem)).2
    have hlater := mem_later.mpr ⟨hsub k hkeys, List.lt_trans hafter hlt⟩
    rw [← List.take_append_drop n (later keys after), List.mem_append] at hlater
    refine hlater.resolve_left fun htake => ?_
    obtain ⟨front, hfront⟩ := List.getLast?_eq_some_iff.mp hcursor
    rw [hfront] at htake hascending
    rcases List.mem_append.mp htake with hk' | hk'
    · have hbefore := (List.pairwise_append.mp (List.pairwise_append.mp hascending).1).2.2 k hk' cursor
        (by simp)
      exact List.lt_irrefl k (List.lt_trans hbefore hlt)
    · rw [List.mem_singleton.mp hk'] at hlt
      exact List.lt_irrefl cursor hlt
  have hle : (later keys' cursor).length ≤ ((later keys after).drop n).length :=
    ((nodup_of_ascending (later_ascending h'.nodup cursor)).subperm hcut).length_le
  have htake : 0 < ((later keys after).take n).length := List.length_pos_of_mem hmem
  have hlength := congrArg List.length (List.take_append_drop n (later keys after))
  rw [List.length_append] at hlength
  omega

theorem walk_ends (hscope : Valid scope) (hlisting : ∀ i, Listing (listing i)) {quiet : Nat}
    (hquiet : ∀ i, quiet ≤ i → ∀ k ∈ listing (i + 1), k ∈ listing i) (i : Nat) (token after : Bytes)
    (htoken : Resumes scope token after) :
    ∃ n pages, walk scope (visitsFrom listing size i n) token = .ok (pages, none) := by
  by_cases hmore : clampPageSize (size i) < (later (listing i) after).length
  · obtain ⟨cursor, next, hcursor, -, hnext, hwalk⟩ := walk_more hscope (hlisting i) htoken hmore
    obtain ⟨n, pages, hpages⟩ := walk_ends hscope hlisting hquiet (i + 1) next cursor hnext
    refine ⟨n + 1, (later (listing i) after).take (clampPageSize (size i)) :: pages, ?_⟩
    rw [visitsFrom_succ, hwalk, hpages]
    rfl
  · exact ⟨1, _, walk_last (hlisting i) htoken (not_lt.mp hmore) []⟩
termination_by (quiet - i, (later (listing i) after).length)
decreasing_by
  rcases Nat.lt_or_ge i quiet with hlt | hge
  · exact Prod.Lex.left _ _ (by omega)
  · have hdone : quiet - (i + 1) = quiet - i := by omega
    rw [hdone]
    exact Prod.Lex.right _ (length_later_lt (hlisting i) (hlisting (i + 1)) (hquiet i hge) hcursor)

end Ending

def LosesNothing (scope : Bytes) : Prop :=
  ∀ visits : List (List Bytes × Int), (∀ v ∈ visits, Listing v.1) →
    ∃ pages left, walk scope visits [] = .ok (pages, left) ∧ pages.flatten.Pairwise (· < ·) ∧
      (left = none → ∀ k, (∀ v ∈ visits.take pages.length, k ∈ v.1) → pages.flatten.count k = 1)

def Ends (scope : Bytes) : Prop :=
  ∀ (listing : Nat → List Bytes) (size : Nat → Int) (quiet : Nat), (∀ i, Listing (listing i)) →
    (∀ i, quiet ≤ i → ∀ k ∈ listing (i + 1), k ∈ listing i) →
    ∃ n pages, walk scope (visitsFrom listing size 0 n) [] = .ok (pages, none)

def KeptApart (scope : Bytes) : Prop :=
  ∀ other after, other ≠ scope → ∃ e, decodeToken other (encodeToken scope after) = .error e

theorem losesNothing_of_valid {scope : Bytes} (hscope : Valid scope) : LosesNothing scope := by
  intro visits hvisits
  obtain ⟨pages, left, hwalk, hwalked⟩ := walk_walked hscope hvisits (resumes_first scope)
  refine ⟨pages, left, hwalk, hwalked.ascending, fun hleft k hk => ?_⟩
  have hnamed : k ≠ [] := by
    obtain ⟨found, pages', rfl⟩ := List.exists_cons_of_ne_nil (hwalked.begun hleft)
    cases visits with
    | nil =>
      cases hwalk
    | cons v rest => exact (hvisits v List.mem_cons_self).named k (hk v (by simp))
  obtain ⟨b, t, rfl⟩ := List.exists_cons_of_ne_nil hnamed
  have hmem := hwalked.all hleft (b :: t) (List.nil_lt_cons b t) hk
  exact List.count_eq_one_of_mem (nodup_of_ascending hwalked.ascending) hmem

theorem pages_lose_nothing (scope : Bytes) :
    LosesNothing scope ∧ Ends scope ∧ KeptApart scope ↔ Valid scope := by
  constructor
  · rintro ⟨-, -, hapart⟩
    by_contra hscope
    obtain ⟨e, he⟩ := hapart (toValid scope) [] fun heq => hscope (toValid_eq_self.mp heq)
    rw [decodeToken_encodeToken, if_neg (not_not.mpr rfl)] at he
    cases he
  · intro hscope
    refine ⟨losesNothing_of_valid hscope, fun listing size quiet hlisting hquiet => ?_,
      fun other after hother => ?_⟩
    · exact walk_ends hscope hlisting hquiet 0 [] [] (resumes_first scope)
    · refine ⟨.differentListing, ?_⟩
      rw [decodeToken_encodeToken, toValid_of_valid scope hscope, if_pos hother.symm]

theorem token_of_other_listing : decodeToken replacement (encodeToken [0xFF] (ascii "a")) = .ok (ascii "a") ∧
      page [0xFF] [ascii "a", ascii "b"] (encodeToken [0xFF] (ascii "a")) 1 = .error .differentListing := by
  decide +kernel

end CloudBurrow.Paging
