import CloudBurrow.Codec.Base64Url
import CloudBurrow.Codec.ByteOrder
import CloudBurrow.Codec.JsonText
import CloudBurrow.Process.BinarySearch

namespace CloudBurrow.Paging

open Utf8 JsonText BinarySearch

structure Token where
  after : Bytes
  scope : Bytes
deriving DecidableEq

inductive TokenError where
  | notBase64
  | notRecognised
  | differentListing
  | invalid
deriving DecidableEq

def Token.json (t : Token) : Json := .obj [(ascii "a", .str t.after), (ascii "s", .str t.scope)]

def encodeToken (scope after : Bytes) : Bytes := Base64Url.encode (encode (Token.json ⟨after, scope⟩))

def afterNames : List Bytes := [[97], [65]]

def scopeNames : List Bytes := [[115], [83], [0xC5, 0xBF]]

def decodeField (old : Bytes) : Json → Option Bytes
  | .null => some old
  | .str s => some s
  | _ => none

def Token.set (t : Token) (m : Bytes × Json) : Option Token :=
  if m.1 ∈ afterNames then (decodeField t.after m.2).map fun after => { t with after }
  else if m.1 ∈ scopeNames then (decodeField t.scope m.2).map fun scope => { t with scope }
  else some t

def Token.unmarshal : Json → Option Token
  | .null => some ⟨[], []⟩
  | .obj members => members.foldlM Token.set ⟨[], []⟩
  | _ => none

def decodeToken (scope s : Bytes) : Except TokenError Bytes :=
  if s = [] then .ok []
  else
    match Base64Url.decode s with
    | none => .error .notBase64
    | some b =>
      match (parse b).bind Token.unmarshal with
      | none => .error .notRecognised
      | some t => if t.scope ≠ scope then .error .differentListing else .ok t.after

def defaultPageSize : Nat := 100

def maxPageSize : Nat := 1000

def clampPageSize (requested : Int) : Nat :=
  if requested ≤ 0 then defaultPageSize
  else if (maxPageSize : Int) < requested then maxPageSize
  else requested.toNat

def sortKeys (keys : List Bytes) : List Bytes := keys.insertionSort (· ≤ ·)

def searchStrings (sorted : List Bytes) (x : Bytes) : Nat :=
  search sorted.length fun i => (sorted[i]?.map fun k => decide (x ≤ k)).getD true

def startOf (sorted : List Bytes) (after : Bytes) : Nat :=
  if after = [] then 0
  else
    let start := searchStrings sorted after
    if sorted[start]? = some after then start + 1 else start

def page (scope : Bytes) (keys : List Bytes) (pageToken : Bytes) (pageSize : Int) :
    Except TokenError (List Bytes × Bytes) := do
  let after ← decodeToken scope pageToken
  let size := clampPageSize pageSize
  let sorted := sortKeys keys
  let start := startOf sorted after
  if sorted.length ≤ start then pure ([], [])
  else
    let stop := min (start + size) sorted.length
    let found := (sorted.drop start).take (stop - start)
    pure (found, if stop < sorted.length then encodeToken scope (found.getLast?.getD []) else [])

theorem decodeToken_encodeToken (scope other after : Bytes) : decodeToken other (encodeToken scope after) =
      if toValid scope ≠ other then .error .differentListing else .ok (toValid after) := by
  have ha : toValid [97] = [97] := rfl
  have hs : toValid [115] = [115] := rfl
  have hne : encodeToken scope after ≠ [] := by
    intro hnil
    have hdecode := Base64Url.decode_encode (encode (Token.json ⟨after, scope⟩))
    rw [encodeToken] at hnil
    rw [hnil] at hdecode
    have hempty : encode (Token.json ⟨after, scope⟩) = [] := (Option.some.inj hdecode).symm
    obtain ⟨b, u, hhead, -⟩ := encode_head (Token.json ⟨after, scope⟩)
    rw [hhead] at hempty
    cases hempty
  have hparse : parse (encode (Token.json ⟨after, scope⟩)) = some (clean (Token.json ⟨after, scope⟩)) := by
    have h := parse_encode (Token.json ⟨after, scope⟩) (t := []) (by simp)
    rwa [List.append_nil] at h
  have hread : Token.unmarshal (clean (Token.json ⟨after, scope⟩)) = some ⟨toValid after, toValid scope⟩ := by
    simp [Token.json, clean, cleanMembers, ascii, ha, hs, Token.unmarshal, Token.set, afterNames,
      scopeNames, decodeField]
  rw [decodeToken, if_neg hne, encodeToken, Base64Url.decode_encode]
  simp only [hparse, Option.bind_some, hread]

theorem encodeToken_ne_nil (scope after : Bytes) : encodeToken scope after ≠ [] := by
  intro hnil
  have hdecode := decodeToken_encodeToken scope (0 :: toValid scope) after
  have hlen : toValid scope ≠ 0 :: toValid scope := fun h => by
    have := congrArg List.length h
    simp at this
  rw [hnil, if_pos hlen] at hdecode
  cases hdecode

theorem one_le_clampPageSize (requested : Int) : 1 ≤ clampPageSize requested := by
  unfold clampPageSize defaultPageSize maxPageSize
  split_ifs <;> omega

structure Listing (keys : List Bytes) : Prop where
  nodup : keys.Nodup
  named : ∀ k ∈ keys, k ≠ []
  valid : ∀ k ∈ keys, Valid k

def later (keys : List Bytes) (after : Bytes) : List Bytes :=
  (sortKeys keys).filter fun k => decide (after < k)

variable {keys : List Bytes}

theorem mem_sortKeys {k : Bytes} : k ∈ sortKeys keys ↔ k ∈ keys :=
  List.mem_insertionSort _

variable {after : Bytes}

theorem mem_later {k : Bytes} : k ∈ later keys after ↔ k ∈ keys ∧ after < k := by
  rw [later, List.mem_filter, mem_sortKeys, decide_eq_true_iff]

theorem sortKeys_ascending (h : keys.Nodup) : (sortKeys keys).Pairwise (· < ·) := by
  have hsorted : (sortKeys keys).Pairwise (· ≤ ·) := List.pairwise_insertionSort _ keys
  have hnodup : (sortKeys keys).Nodup := (List.perm_insertionSort _ keys).nodup_iff.mpr h
  refine (hsorted.and hnodup).imp fun hab => ?_
  exact (List.le_iff_lt_or_eq.mp hab.1).resolve_right hab.2

theorem later_ascending (h : keys.Nodup) (after : Bytes) : (later keys after).Pairwise (· < ·) :=
  (sortKeys_ascending h).filter _

theorem filter_past_head {b : Bytes} {rest : List Bytes} (h : (b :: rest).Pairwise (· < ·)) (hle : after ≤ b) :
    (b :: rest).filter (fun k => decide (after < k)) = if b = after then rest else b :: rest := by
  have hrest : rest.filter (fun k => decide (after < k)) = rest := by
    rw [List.filter_eq_self]
    intro k hk
    exact decide_eq_true (List.lt_of_le_of_lt hle ((List.pairwise_cons.mp h).1 k hk))
  rw [List.filter_cons, hrest]
  rcases List.le_iff_lt_or_eq.mp hle with hlt | rfl
  · have hne : b ≠ after := fun heq => List.lt_irrefl after (heq ▸ hlt)
    rw [if_pos (decide_eq_true hlt), if_neg hne]
  · rw [if_neg (by simp [List.lt_irrefl]), if_pos rfl]

theorem drop_startOf {sorted : List Bytes} (h : sorted.Pairwise (· < ·)) (hnamed : ∀ k ∈ sorted, k ≠ [])
    (after : Bytes) :
    sorted.drop (startOf sorted after) = sorted.filter fun k => decide (after < k) := by
  by_cases hnil : after = []
  · subst hnil
    rw [startOf, if_pos rfl, List.drop_zero, List.filter_eq_self.mpr]
    intro k hk
    obtain ⟨b, t, rfl⟩ := List.exists_cons_of_ne_nil (hnamed k hk)
    exact decide_eq_true (List.nil_lt_cons b t)
  have hmono : sorted.Pairwise fun a b => decide (after ≤ a) = true → decide (after ≤ b) = true :=
    h.imp fun hab ha => decide_eq_true (List.le_of_lt (List.lt_of_le_of_lt (of_decide_eq_true ha) hab))
  have hdrop : sorted.drop (searchStrings sorted after) = sorted.filter fun k => decide (after ≤ k) :=
    drop_search hmono
  have hhead : sorted[searchStrings sorted after]? = (sorted.drop (searchStrings sorted after)).head? :=
    List.head?_drop.symm
  have hpast : sorted.filter (fun k => decide (after < k)) =
      (sorted.drop (searchStrings sorted after)).filter fun k => decide (after < k) := by
    rw [hdrop, List.filter_filter]
    refine List.filter_congr fun k _ => ?_
    by_cases hlt : after < k
    · simp [hlt, List.le_of_lt hlt]
    · simp [hlt]
  have hascending := h.drop (i := searchStrings sorted after)
  have hle : ∀ k ∈ sorted.drop (searchStrings sorted after), after ≤ k := by
    intro k hk
    rw [hdrop, List.mem_filter] at hk
    exact of_decide_eq_true hk.2
  rw [hpast, startOf, if_neg hnil]
  dsimp only
  rw [hhead]
  cases hrest : sorted.drop (searchStrings sorted after) with
  | nil =>
    rw [if_neg (by simp), hrest]
    rfl
  | cons b rest =>
    rw [hrest] at hascending hle
    rw [filter_past_head hascending (hle b List.mem_cons_self), List.head?_cons]
    by_cases hat : b = after
    · rw [if_pos (congrArg some hat), if_pos hat, ← List.drop_drop, hrest, List.drop_succ_cons,
        List.drop_zero]
    · rw [if_neg fun heq => hat (Option.some.inj heq), if_neg hat, hrest]

theorem page_eq {scope token : Bytes} (h : Listing keys) (htoken : decodeToken scope token = .ok after) (size : Int) :
    page scope keys token size = .ok ((later keys after).take (clampPageSize size),
      if clampPageSize size < (later keys after).length then
        encodeToken scope (((later keys after).take (clampPageSize size)).getLast?.getD []) else []) := by
  have hascending := sortKeys_ascending h.nodup
  have hrest : (sortKeys keys).drop (startOf (sortKeys keys) after) = later keys after :=
    drop_startOf hascending (fun k hk => h.named k (mem_sortKeys.mp hk)) after
  have hlength : (later keys after).length = (sortKeys keys).length - startOf (sortKeys keys) after := by
    rw [← hrest, List.length_drop]
  have hsize := one_le_clampPageSize size
  rw [page, htoken]
  change (if _ then _ else _) = _
  by_cases hend : (sortKeys keys).length ≤ startOf (sortKeys keys) after
  · have hnone : later keys after = [] := List.eq_nil_of_length_eq_zero (by omega)
    rw [if_pos hend, hnone, List.take_nil, if_neg (by simp)]
    rfl
  · have htake : (later keys after).take
        (min (startOf (sortKeys keys) after + clampPageSize size) (sortKeys keys).length -
          startOf (sortKeys keys) after) = (later keys after).take (clampPageSize size) := by
      rw [List.take_eq_take_iff]
      omega
    have hmore : (min (startOf (sortKeys keys) after + clampPageSize size) (sortKeys keys).length <
        (sortKeys keys).length) = (clampPageSize size < (later keys after).length) := by
      apply propext
      omega
    rw [if_neg hend, hrest, htake]
    simp only [hmore]
    rfl

end CloudBurrow.Paging
