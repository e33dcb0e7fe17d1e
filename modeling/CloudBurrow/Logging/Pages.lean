import CloudBurrow.Codec.ParseInt
import CloudBurrow.Paging.Page
import CloudBurrow.Paging.Positions

namespace CloudBurrow.Logging

open Utf8 JsonText ParseInt Paging Paging.Positions BinarySearch

structure Entry where
  pointer : Nat
  seconds : Int
  nanos : Int
  logName : Bytes
  insertId : Bytes
  time : Fits seconds ∧ -2 ^ 31 ≤ nanos ∧ nanos < 2 ^ 31 := by decide
  text : Valid logName ∧ Valid insertId := by decide
deriving DecidableEq

structure Cursor where
  seconds : Int
  nanos : Int
  log : Bytes
  insert : Bytes
deriving DecidableEq

def cursorOf (e : Entry) : Cursor := ⟨e.seconds, e.nanos, e.logName, e.insertId⟩

namespace Cursor

def json (c : Cursor) : Json :=
  .obj [(ascii "t", .num c.seconds), (ascii "n", .num c.nanos), (ascii "l", .str c.log), (ascii "i", .str c.insert)]

def decodeInt (bound old : Int) : Json → Option Int
  | .null => some old
  | .num n => if -bound ≤ n ∧ n < bound then some n else none
  | _ => none

def set (c : Cursor) (m : Bytes × Json) : Option Cursor :=
  if m.1 = ascii "t" ∨ m.1 = ascii "T" then (decodeInt (2 ^ 63) c.seconds m.2).map fun seconds => { c with seconds }
  else if m.1 = ascii "n" ∨ m.1 = ascii "N" then (decodeInt (2 ^ 31) c.nanos m.2).map fun nanos => { c with nanos }
  else if m.1 = ascii "l" ∨ m.1 = ascii "L" then (decodeField c.log m.2).map fun log => { c with log }
  else if m.1 = ascii "i" ∨ m.1 = ascii "I" then (decodeField c.insert m.2).map fun insert => { c with insert }
  else some c

def unmarshal : Json → Option Cursor
  | .null => some ⟨0, 0, [], []⟩
  | .obj members => members.foldlM set ⟨0, 0, [], []⟩
  | _ => none

def token (scope : Bytes) (c : Cursor) : Bytes := encodeToken scope (encode c.json)

end Cursor

def resumeOf (scope token : Bytes) : Except TokenError (Option Cursor) := do
  let after ← decodeToken scope token
  if after = [] then pure none
  else
    match (parse after).bind Cursor.unmarshal with
    | none => throw .invalid
    | some c => pure (some c)

def compareOf {K : Type} [LT K] [DecidableLT K] (a b : K) : Int :=
  if a < b then -1 else if b < a then 1 else 0

def Cursor.compare (a b : Cursor) : Int :=
  if a.seconds ≠ b.seconds then compareOf a.seconds b.seconds
  else if a.nanos ≠ b.nanos then compareOf a.nanos b.nanos
  else if a.log ≠ b.log then compareOf a.log b.log
  else compareOf a.insert b.insert

structure Listing where
  scope : Bytes
  filter : Entry → Bool
  desc : Bool
  text : Valid scope := by decide

def append (limit : Nat) (entries es : List Entry) : List Entry :=
  (entries ++ es).drop ((entries ++ es).length - limit)

def collect (found : List Entry) : List Entry → List Entry
  | [] => found
  | e :: rest => collect (if e ∈ found then found else found ++ [e]) rest

def pageSize (size : Int) : Nat := if size ≤ 0 ∨ 1000 < size then 1000 else size.toNat

namespace Listing
variable (l : Listing)

def less (a b : Cursor) : Bool := if l.desc then decide (0 < a.compare b) else decide (a.compare b < 0)

def before (a b : Entry) : Prop := l.less (cursorOf a) (cursorOf b) = true

instance : DecidableRel l.before := fun _ _ => inferInstanceAs (Decidable (_ = true))

def found (entries : List Entry) (sources : List (Entry → Bool)) : List Entry :=
  collect [] (sources.flatMap fun holds => entries.filter fun e => holds e && l.filter e)

def pageAfter (entries : List Entry) (sources : List (Entry → Bool)) (resume : Option Cursor) (size : Int) :
    List Entry × Option Cursor :=
  let found := sorted l.before (l.found entries sources)
  let start := match resume with
    | none => 0
    | some c => search found.length fun i => (found[i]?.map fun e => l.less c (cursorOf e)).getD true
  let stop := min (start + pageSize size) found.length
  ((found.take stop).drop start, if stop < found.length then found[stop - 1]?.map cursorOf else none)

def listLogEntries (entries : List Entry) (sources : List (Entry → Bool)) (token : Bytes) (size : Int) :
    Except TokenError (List Entry × Bytes) := do
  let resume ← resumeOf l.scope token
  let (page, next) := l.pageAfter entries sources resume size
  pure (page, (next.map (Cursor.token l.scope)).getD [])

def matching (entries : List Entry) (sources : List (Entry → Bool)) : List Entry :=
  entries.filter fun e => sources.any (fun holds => holds e) && l.filter e

def later (resume : Option Cursor) (es : List Entry) : List Entry :=
  es.filter fun e => resume.all fun c => l.less c (cursorOf e)

end Listing

structure Walk where
  entries : List Entry
  limit : Nat
  token : Option Bytes
  shown : List Entry
  throughout : List Entry

inductive Step where
  | write (es : List Entry)
  | forget (gone : Entry → Bool)
  | page (sources : List (Entry → Bool)) (size : Int)

namespace Walk

def start (limit : Nat) (entries : List Entry) : Walk := ⟨entries, limit, some [], [], []⟩

def ask (l : Listing) (w : Walk) (token : Bytes) (sources : List (Entry → Bool)) (size : Int) : Walk :=
  match l.listLogEntries w.entries sources token size with
  | .error _ => w
  | .ok (page, next) =>
    let matching := l.matching w.entries sources
    { w with
      token := if next = [] then none else some next
      shown := w.shown ++ page
      throughout := if token = [] then matching else w.throughout.filter (· ∈ matching) }

def step (l : Listing) (w : Walk) : Step → Walk
  | .write es => { w with entries := append w.limit w.entries es }
  | .forget gone => { w with entries := w.entries.filter fun e => !gone e }
  | .page sources size =>
    match w.token with
    | none => w
    | some token => w.ask l token sources size

def run (l : Listing) (w : Walk) (steps : List Step) : Walk := steps.foldl (step l) w

structure Lossless (l : Listing) (w : Walk) : Prop where
  ordered : w.shown.Pairwise fun a b => ¬ l.before b a
  once : w.shown.Nodup
  complete : w.token = none → ∀ e ∈ w.throughout, e ∈ w.shown

def resume (l : Listing) (w : Walk) : Option (Option Cursor) := w.token.bind fun token => (resumeOf l.scope token).toOption

def Clear (l : Listing) (w : Walk) : Step → Prop
  | .write _ | .forget _ => True
  | .page sources size => ∀ resume ∈ w.resume l,
      Uncut l.before (l.later resume (l.matching w.entries sources).dedup) (pageSize size)

def AllClear (l : Listing) : Walk → List Step → Prop
  | _, [] => True
  | w, s :: rest => w.Clear l s ∧ AllClear l (w.step l s) rest

instance (l : Listing) (w : Walk) : DecidablePred (w.Clear l)
  | .write _ | .forget _ => isTrue trivial
  | .page _ _ => inferInstanceAs (Decidable (∀ resume ∈ w.resume l, _))

instance decidableAllClear (l : Listing) : ∀ w steps, Decidable (AllClear l w steps)
  | _, [] => isTrue trivial
  | w, s :: rest =>
    have := decidableAllClear l (w.step l s) rest
    inferInstanceAs (Decidable (_ ∧ _))

end Walk

section Tokens
variable {scope : Bytes}

theorem Cursor.valid_json (c : Cursor) : Valid (encode c.json) := by
  have happend : ∀ {s t : Bytes}, Valid s → Valid t → Valid (s ++ t) := fun hs ht => (valid_append _ hs).mpr ht
  have hcons : ∀ (b : UInt8) {t : Bytes}, b < 0x80 → Valid t → Valid (b :: t) := fun b _ hb ht =>
    (valid_append (s := [b]) _ (valid_ascii _ (by simpa using hb))).mpr ht
  have hcolon : ∀ (k : Bytes) {t : Bytes}, Valid t → Valid (quote k ++ 58 :: t) := fun k _ ht =>
    happend (valid_quote k) (hcons 58 (by decide) ht)
  have hcomma : ∀ {s t : Bytes}, Valid s → Valid t → Valid (s ++ 44 :: t) := fun hs ht =>
    happend hs (hcons 44 (by decide) ht)
  simp only [json, encode, encodeMembers, List.append_assoc, List.cons_append]
  refine hcons 123 (by decide) (hcolon _ (hcomma (valid_integer _) (hcolon _ (hcomma (valid_integer _) ?_))))
  exact hcolon _ (hcomma (valid_quote _) (hcolon _ (happend (valid_quote _) (by decide))))

theorem resumeOf_nil : resumeOf scope [] = .ok none := rfl

theorem resumeOf_token (hscope : Valid scope) (e : Entry) :
    resumeOf scope ((cursorOf e).token scope) = .ok (some (cursorOf e)) := by
  obtain ⟨hlog, hinsert⟩ := e.text
  have hparse : parse (encode (cursorOf e).json) = some (clean (cursorOf e).json) := by
    simpa using parse_encode (cursorOf e).json (t := []) (by simp)
  have hread : Cursor.unmarshal (clean (cursorOf e).json) = some (cursorOf e) := by
    have ht : toValid [116] = [116] := rfl
    have hn : toValid [110] = [110] := rfl
    have hl : toValid [108] = [108] := rfl
    have hi : toValid [105] = [105] := rfl
    have hseconds : Cursor.decodeInt (2 ^ 63) 0 (.num e.seconds) = some e.seconds := if_pos e.time.1
    have hnanos : Cursor.decodeInt (2 ^ 31) 0 (.num e.nanos) = some e.nanos := if_pos e.time.2
    simp [Cursor.json, clean, cleanMembers, ascii, ht, hn, hl, hi, Cursor.unmarshal, Cursor.set, decodeField, cursorOf,
      toValid_of_valid _ hlog, toValid_of_valid _ hinsert, -Int.reducePow, hseconds, hnanos]
  have hne : encode (cursorOf e).json ≠ [] := by
    obtain ⟨b, u, hhead, -⟩ := encode_head (cursorOf e).json
    simp [hhead]
  unfold resumeOf Cursor.token
  rw [decodeToken_encodeToken, toValid_of_valid _ hscope, if_neg (not_not.mpr rfl),
    toValid_of_valid _ (Cursor.valid_json _)]
  simp only [bind, Except.bind, if_neg hne, hparse, Option.bind_some, hread]
  rfl

end Tokens

section Order

section
variable {K : Type} [LT K] [DecidableLT K] {a b : K}

theorem compareOf_neg : compareOf a b < 0 ↔ a < b := by
  unfold compareOf
  split_ifs <;> simp_all

theorem compareOf_pos (h : a < b → ¬ b < a) : 0 < compareOf a b ↔ b < a := by
  unfold compareOf
  split_ifs with hlt hgt
  · simp [h hlt]
  all_goals simp [hgt]

end

def Cursor.Before (a b : Cursor) : Prop :=
  a.seconds < b.seconds ∨ ¬ b.seconds < a.seconds ∧ (a.nanos < b.nanos ∨ ¬ b.nanos < a.nanos ∧
    (a.log < b.log ∨ ¬ b.log < a.log ∧ a.insert < b.insert))

theorem strictWeak_before : StrictWeak Cursor.Before :=
  (StrictWeak.of_key Cursor.seconds).lex ((StrictWeak.of_key Cursor.nanos).lex
    ((StrictWeak.of_text Cursor.log).lex (StrictWeak.of_text Cursor.insert)))

theorem text_lt_or_gt {a b : Bytes} (h : a ≠ b) : a < b ∨ b < a := by
  rcases List.le_total a b with hle | hle
  · exact Or.inl ((List.le_iff_lt_or_eq.mp hle).resolve_right h)
  · exact Or.inr ((List.le_iff_lt_or_eq.mp hle).resolve_right h.symm)

variable {a b : Cursor}

theorem Cursor.compare_neg : a.compare b < 0 ↔ a.Before b := by
  unfold Cursor.compare Cursor.Before
  split_ifs with hseconds hnanos hlog
  · rw [compareOf_neg]
    omega
  · rw [compareOf_neg]
    omega
  · rw [compareOf_neg]
    have hside := text_lt_or_gt hlog
    have hnot : b.log < a.log → ¬ a.log < b.log := List.le_of_lt
    simp_all
    tauto
  · have hself : ¬ b.log < b.log := List.lt_irrefl _
    rw [compareOf_neg]
    simp_all

theorem Cursor.compare_swap : 0 < a.compare b ↔ b.compare a < 0 := by
  have htext : ∀ s t : Bytes, 0 < compareOf s t ↔ compareOf t s < 0 := fun s t => by
    rw [compareOf_pos List.le_of_lt, compareOf_neg]
  have hint : ∀ s t : Int, 0 < compareOf s t ↔ compareOf t s < 0 := fun s t => by
    rw [compareOf_pos fun h => not_lt.mpr h.le, compareOf_neg]
  unfold Cursor.compare
  simp only [ne_comm]
  split_ifs
  · exact hint _ _
  · exact hint _ _
  all_goals exact htext _ _

variable (l : Listing)

theorem Listing.strictWeak_less : StrictWeak fun a b => l.less a b = true := by
  unfold Listing.less
  cases l.desc with
  | false => simpa [Cursor.compare_neg] using strictWeak_before
  | true => simpa [Cursor.compare_swap, Cursor.compare_neg] using strictWeak_before.flip

theorem Listing.strictWeak : StrictWeak l.before :=
  ⟨fun _ _ => l.strictWeak_less.asymm _ _, fun _ _ _ => l.strictWeak_less.negTrans _ _ _⟩

end Order

section Found

theorem mem_collect {e : Entry} {found es : List Entry} : e ∈ collect found es ↔ e ∈ found ∨ e ∈ es := by
  induction es generalizing found with
  | nil => simp [collect]
  | cons a es ih =>
    rw [collect, ih]
    split_ifs with ha
    · rw [List.mem_cons]
      constructor
      · tauto
      · rintro (h | rfl | h)
        · exact Or.inl h
        · exact Or.inl ha
        · exact Or.inr h
    · simp [or_assoc]

theorem nodup_collect {found es : List Entry} (h : found.Nodup) : (collect found es).Nodup := by
  induction es generalizing found with
  | nil => exact h
  | cons a es ih =>
    rw [collect]
    split_ifs with ha
    · exact ih h
    · exact ih (List.nodup_append_comm.mp (List.nodup_cons.mpr ⟨ha, h⟩))

namespace Listing
variable {l : Listing} {entries : List Entry} {sources : List (Entry → Bool)} {resume : Option Cursor} {size : Int}

theorem found_perm : (l.found entries sources).Perm (l.matching entries sources).dedup := by
  refine (List.perm_ext_iff_of_nodup (nodup_collect List.nodup_nil) (List.nodup_dedup _)).mpr fun e => ?_
  simp only [matching, mem_collect, List.mem_dedup, List.mem_flatMap, List.mem_filter, List.any_eq_true,
    Bool.and_eq_true, List.not_mem_nil, false_or]
  tauto

def rest (l : Listing) (entries : List Entry) (sources : List (Entry → Bool)) (resume : Option Cursor) : List Entry :=
  l.later resume (sorted l.before (l.found entries sources))

theorem rest_perm : (l.rest entries sources resume).Perm (l.later resume (l.matching entries sources).dedup) :=
  (perm_sorted.trans found_perm).filter _

theorem rest_sorted : (l.rest entries sources resume).Pairwise fun a b => ¬ l.before b a :=
  (sorted_pairwise l.strictWeak _).filter _

theorem rest_nodup : (l.rest entries sources resume).Nodup :=
  (rest_perm.nodup_iff).mpr ((List.nodup_dedup _).filter _)

theorem mem_rest {e : Entry} : e ∈ l.rest entries sources resume ↔
    e ∈ l.matching entries sources ∧ ∀ c ∈ resume, l.less c (cursorOf e) = true := by
  rw [rest_perm.mem_iff, later, List.mem_filter, List.mem_dedup]
  cases resume <;> simp

theorem pageSize_pos (size : Int) : 0 < pageSize size := by
  unfold pageSize
  split_ifs
  · decide
  · omega

theorem page_eq {s rest : List Entry} {start n : Nat} (hn : 0 < n) (h : s.drop start = rest) :
    ((s.take (min (start + n) s.length)).drop start,
      if min (start + n) s.length < s.length then s[min (start + n) s.length - 1]?.map cursorOf else none) =
    (rest.take n, if n < rest.length then rest[n - 1]?.map cursorOf else none) := by
  subst h
  refine Prod.ext ?_ ?_
  · rw [List.drop_take, List.take_eq_take_iff, List.length_drop]
    omega
  · rw [List.length_drop]
    split_ifs with hmore hmore' hmore'
    · rw [List.getElem?_drop, show min (start + n) s.length - 1 = start + (n - 1) by omega]
    · omega
    · omega
    · rfl

theorem pageAfter_eq : l.pageAfter entries sources resume size =
    ((l.rest entries sources resume).take (pageSize size),
      if pageSize size < (l.rest entries sources resume).length then
        (l.rest entries sources resume)[pageSize size - 1]?.map cursorOf else none) := by
  unfold pageAfter
  refine page_eq (pageSize_pos size) ?_
  cases resume with
  | none => simp [rest, later]
  | some c =>
    refine drop_search ((sorted_pairwise l.strictWeak _).imp fun {a b} hab hca => ?_)
    by_contra hcb
    exact l.strictWeak_less.negTrans _ _ _ hab hcb hca

theorem pageAfter_cases : (l.pageAfter entries sources resume size = (l.rest entries sources resume, none)) ∨
    ∃ front last tail, l.rest entries sources resume = front ++ last :: tail ∧
      pageSize size = front.length + 1 ∧
      l.pageAfter entries sources resume size = (front ++ [last], some (cursorOf last)) := by
  rw [pageAfter_eq]
  obtain ⟨n, hn⟩ := Nat.exists_eq_succ_of_ne_zero (pageSize_pos size).ne'
  rw [hn]
  generalize l.rest entries sources resume = rest
  by_cases hmore : n + 1 < rest.length
  · right
    have hlen : n < rest.length := by omega
    refine ⟨rest.take n, rest[n], rest.drop (n + 1), ?_, ?_, ?_⟩
    · rw [← List.drop_eq_getElem_cons, List.take_append_drop]
    · rw [List.length_take, Nat.min_eq_left hlen.le]
    · rw [if_pos hmore, List.take_add_one]
      simp [hlen]
  · left
    rw [if_neg hmore, List.take_of_length_le (by omega)]

end Listing
end Found

namespace Walk
variable {l : Listing} {w : Walk}

structure Sound (l : Listing) (w : Walk) : Prop extends Lossless l w where
  issued : ∀ token ∈ w.token, token = [] ∨ ∃ e : Entry, token = (cursorOf e).token l.scope
  fresh : w.resume l = some none → w.shown = []
  behind : ∀ c, w.resume l = some (some c) → ∀ e ∈ w.shown, ¬ l.less c (cursorOf e) = true
  ahead : ∀ c, w.resume l = some (some c) → ∀ e ∈ w.throughout, e ∉ w.shown → l.less c (cursorOf e) = true

theorem Sound.start (limit : Nat) (entries : List Entry) : Sound l (start limit entries) where
  ordered := List.Pairwise.nil
  once := List.nodup_nil
  complete h := nomatch h
  issued _ h := .inl (Option.some.inj h).symm
  fresh _ := rfl
  behind _ h := nomatch h
  ahead _ h := nomatch h

section Page
variable {sources : List (Entry → Bool)} {resume : Option Cursor} {size : Int}

def turn (l : Listing) (w : Walk) (resume : Option Cursor) (sources : List (Entry → Bool)) (size : Int) : Walk :=
  let (page, next) := l.pageAfter w.entries sources resume size
  let matching := l.matching w.entries sources
  { w with
    token := next.map (Cursor.token l.scope)
    shown := w.shown ++ page
    throughout := if resume = none then matching else w.throughout.filter (· ∈ matching) }

theorem ask_eq_turn {token : Bytes} (htoken : resumeOf l.scope token = .ok resume) (hfirst : token = [] ↔ resume = none) :
    w.ask l token sources size = w.turn l resume sources size := by
  simp only [ask, turn, Listing.listLogEntries, htoken, bind, Except.bind, pure, Except.pure, hfirst]
  cases (l.pageAfter w.entries sources resume size).2 with
  | none => rfl
  | some c => simp only [Option.map_some, Option.getD_some, Cursor.token, encodeToken_ne_nil, if_false]

theorem Sound.token_cases (h : Sound l w) {token : Bytes} (htoken : w.token = some token) :
    ∃ resume, resumeOf l.scope token = .ok resume ∧ (token = [] ↔ resume = none) ∧ w.resume l = some resume := by
  have hresume : ∀ resume, resumeOf l.scope token = .ok resume → w.resume l = some resume := fun resume hok => by
    rw [Walk.resume, htoken, Option.bind_some, hok]
    rfl
  rcases h.issued token htoken with rfl | ⟨e, rfl⟩
  · exact ⟨none, resumeOf_nil, by simp, hresume _ resumeOf_nil⟩
  · have hok := resumeOf_token l.text e
    exact ⟨_, hok, by simp [Cursor.token, encodeToken_ne_nil], hresume _ hok⟩

theorem Sound.before_rest (h : Sound l w) (hresume : w.resume l = some resume) :
    ∀ a ∈ w.shown, ∀ b ∈ l.rest w.entries sources resume, l.before a b := by
  intro a ha b hb
  cases resume with
  | none =>
    rw [h.fresh hresume] at ha
    exact nomatch ha
  | some c =>
    by_contra hab
    exact l.strictWeak_less.negTrans _ _ _ hab (h.behind c hresume a ha) ((Listing.mem_rest.mp hb).2 c rfl)

theorem Sound.mem_rest (h : Sound l w) (hresume : w.resume l = some resume) {e : Entry}
    (he : e ∈ (w.turn l resume sources size).throughout) (hnew : e ∉ w.shown) :
    e ∈ l.rest w.entries sources resume := by
  rw [Listing.mem_rest]
  cases resume with
  | none => exact ⟨he, fun c hc => nomatch hc⟩
  | some c =>
    obtain ⟨hheld, hmatch⟩ := List.mem_filter.mp he
    refine ⟨of_decide_eq_true hmatch, fun c' hc => ?_⟩
    obtain rfl := Option.some.inj hc
    exact h.ahead c hresume e hheld hnew

theorem Sound.shown_append (h : Sound l w) (hresume : w.resume l = some resume) {page : List Entry}
    (hpage : page.Sublist (l.rest w.entries sources resume)) :
    (w.shown ++ page).Pairwise (fun a b => ¬ l.before b a) ∧ (w.shown ++ page).Nodup := by
  have hcross : ∀ a ∈ w.shown, ∀ b ∈ page, l.before a b := fun a ha b hb =>
    h.before_rest hresume a ha b (hpage.subset hb)
  constructor
  · refine List.pairwise_append.mpr ⟨h.ordered, Listing.rest_sorted.sublist hpage, fun a ha b hb => ?_⟩
    exact l.strictWeak.asymm a b (hcross a ha b hb)
  · refine List.nodup_append.mpr ⟨h.once, Listing.rest_nodup.sublist hpage, ?_⟩
    rintro a ha b hb rfl
    exact l.strictWeak.asymm a a (hcross a ha a hb) (hcross a ha a hb)

theorem Sound.last_page (h : Sound l w) (hresume : w.resume l = some resume)
    (hlist : l.pageAfter w.entries sources resume size = (l.rest w.entries sources resume, none)) :
    Sound l (w.turn l resume sources size) := by
  have hshown : (w.turn l resume sources size).shown = w.shown ++ l.rest w.entries sources resume := by
    rw [turn, hlist]
  have hdone : (w.turn l resume sources size).token = none := by
    rw [turn, hlist]
    rfl
  obtain ⟨hordered, honce⟩ := h.shown_append hresume (List.Sublist.refl (l.rest w.entries sources resume))
  rw [← hshown] at hordered honce
  refine ⟨⟨hordered, honce, fun _ e he => ?_⟩, ?_, ?_, ?_, ?_⟩
  · rw [hshown, List.mem_append]
    by_cases hold : e ∈ w.shown
    · exact Or.inl hold
    · exact Or.inr (h.mem_rest hresume he hold)
  all_goals
    try unfold Walk.resume
    rw [hdone]
    nofun

theorem Sound.next_page (h : Sound l w) (hresume : w.resume l = some resume) (hclear : w.Clear l (.page sources size))
    {front tail : List Entry} {last : Entry} (hrest : l.rest w.entries sources resume = front ++ last :: tail)
    (hsize : pageSize size = front.length + 1)
    (hlist : l.pageAfter w.entries sources resume size = (front ++ [last], some (cursorOf last))) :
    Sound l (w.turn l resume sources size) := by
  have hshown : (w.turn l resume sources size).shown = w.shown ++ (front ++ [last]) := by
    rw [turn, hlist]
  have htoken : (w.turn l resume sources size).token = some ((cursorOf last).token l.scope) := by
    rw [turn, hlist]
    rfl
  have hnext : (w.turn l resume sources size).resume l = some (some (cursorOf last)) := by
    rw [Walk.resume, htoken, Option.bind_some, resumeOf_token l.text]
    rfl
  have hpage : (front ++ [last]).Sublist (l.rest w.entries sources resume) := by
    rw [hrest]
    exact (List.singleton_sublist.mpr (by simp)).append_left front
  have hsorted := hrest ▸ Listing.rest_sorted (l := l)
  have htied : Uncut l.before (front ++ last :: tail) (front.length + 1) := by
    rw [← hrest, ← hsize]
    exact (hclear resume hresume).of_perm Listing.rest_perm
  obtain ⟨hordered, honce⟩ := h.shown_append hresume hpage
  rw [← hshown] at hordered honce
  refine ⟨⟨hordered, honce, ?_⟩, fun token hin => .inr ⟨last, ?_⟩, ?_, ?_, ?_⟩
  · rw [htoken]
    nofun
  · rw [htoken] at hin
    exact (Option.some.inj hin).symm
  · rw [hnext]
    nofun
  · rintro c hc e he
    rw [hnext] at hc
    obtain rfl := Option.some.inj (Option.some.inj hc)
    rw [hshown, ← List.append_assoc] at he
    rw [hshown, ← List.append_assoc] at hordered
    rcases List.mem_append.mp he with hold | hlast
    · exact (List.pairwise_append.mp hordered).2.2 e hold last (by simp)
    · rw [List.mem_singleton.mp hlast]
      exact fun hself => l.strictWeak.asymm last last hself hself
  · rintro c hc e he hnew
    rw [hnext] at hc
    obtain rfl := Option.some.inj (Option.some.inj hc)
    rw [hshown, List.mem_append, not_or] at hnew
    have hmem := h.mem_rest hresume he hnew.1
    rw [hrest, List.append_cons, List.mem_append] at hmem
    exact before_of_uncut l.strictWeak hsorted htied e (hmem.resolve_left hnew.2)

end Page

theorem Sound.step (h : Sound l w) {s : Step} (hclear : w.Clear l s) : Sound l (w.step l s) := by
  cases s with
  | write es | forget gone => exact ⟨⟨h.ordered, h.once, h.complete⟩, h.issued, h.fresh, h.behind, h.ahead⟩
  | page sources size =>
    rw [Walk.step]
    split
    · exact h
    · rename_i token htoken
      obtain ⟨resume, hok, hfirst, hresume⟩ := h.token_cases htoken
      rw [ask_eq_turn hok hfirst]
      rcases l.pageAfter_cases with hlist | ⟨front, last, tail, hrest, hsize, hlist⟩
      · exact h.last_page hresume hlist
      · exact h.next_page hresume hclear hrest hsize hlist

theorem Sound.run {steps : List Step} (h : Sound l w) (hclear : AllClear l w steps) : Sound l (w.run l steps) := by
  induction steps generalizing w with
  | nil => exact h
  | cons s rest ih => exact ih (h.step hclear.1) hclear.2

def newest : Entry := { pointer := 3, seconds := 20, nanos := 0, logName := [97], insertId := [] }

end Walk

end CloudBurrow.Logging
