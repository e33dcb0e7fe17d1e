import CloudBurrow.BigQuery.RowPolicies

namespace CloudBurrow.BigQuery

open Utf8

section Conditions

def inFrom : Nat → List Mark → Bool
  | _, [] => false
  | n, .closes :: ms => inFrom (n + 1) ms
  | 0, .opens :: _ => false
  | n + 1, .opens :: ms => inFrom n ms
  | 0, .source :: _ => true
  | 0, .usingWord :: _ => false
  | 0, .ends :: _ => false
  | n, _ :: ms => inFrom n ms

def bracketDepth : List Mark → Int
  | [] => 0
  | .opens :: ms => bracketDepth ms + 1
  | .closes :: ms => bracketDepth ms - 1
  | _ :: ms => bracketDepth ms

def leads (merge : Bool) : List Mark → Bool
  | .source :: _ => true
  | .comma :: ms => inFrom 0 ms
  | .usingWord :: ms => merge && bracketDepth ms = 0
  | _ => false

def introduced (stmt : List Token) (i : Nat) : Bool :=
  leads (stmt.head?.any (Token.is · "MERGE")) ((marks stmt).take i).reverse

def startsPath (ts : List Token) (i : Nat) : Bool :=
  (ts[i]?).any Token.isName && (i = 0 || (ts[i - 1]?).any fun t => !t.punct "." && !t.punct "-")

variable (db : Catalog)

def namesAt (ts : List Token) (i : Nat) (t : Table) : Bool :=
  let p := path (ts.drop i)
  resolve db.project p.1 = some t && (wildcard ⟨i, p.1, p.2⟩ t.2).isNone

def wildcardAt (ts : List Token) (i : Nat) (t : Table) : Bool :=
  let p := path (ts.drop i)
  (resolve db.project p.1).any fun w =>
    (wildcard ⟨i, p.1, p.2⟩ w.2).any fun start => w.1 = t.1 && start.isPrefixOf t.2 && db.isProtected t

def shown (sql : Sql) (item : Item) : Bool :=
  match sql.toks, item.place with
  | some toks, some (k, i) =>
    ((splitStatements toks)[k]?).any fun stmt =>
      let body := stripControlFlow stmt
      let j := i - (stmt.length - body.length)
      decide (stmt.length - body.length ≤ i) && (body[j]?).any (fun t => t.isName && !t.reserved) &&
        (namesAt db body j item.table && introduced body j || wildcardAt db body j item.table && startsPath body j)
  | _, _ => false

def found (sql : Sql) (item : Item) : Bool :=
  match sql.toks, item.place with
  | some toks, some (0, i) => startsPath toks i && resolve db.project (path (toks.drop i)).1 = some item.table
  | _, _ => false

inductive Reaches : Table → Table → Prop
  | self (t : Table) : Reaches t t
  | view {v t : Table} {sql : Sql} {item : Item} : db.view v = some sql → item ∈ sql.items → Reaches item.table t →
      Reaches v t

inductive Follows : Table → Table → Prop
  | self (t : Table) : Follows t t
  | view {v t : Table} {sql : Sql} {item : Item} : db.view v = some sql → item ∈ sql.items → found db sql item = true →
      Follows item.table t → Follows v t

end Conditions

section Scanning

@[simp] theorem inFrom_closes (n : Nat) (ms : List Mark) : inFrom n (.closes :: ms) = inFrom (n + 1) ms := by
  cases n <;> rfl

@[simp] theorem inFrom_other (n : Nat) (ms : List Mark) : inFrom n (.other :: ms) = inFrom n ms := by
  cases n <;> rfl

@[simp] theorem inFrom_comma (n : Nat) (ms : List Mark) : inFrom n (.comma :: ms) = inFrom n ms := by
  cases n <;> rfl

structure Scanned (merge : Bool) (ms : List Mark) (s : Scan) : Prop where
  pos : s.pos = ms.length
  depth : s.depth = bracketDepth ms.reverse
  fromAt : ∀ n : Nat, s.fromAt (s.depth - n) = inFrom n ms.reverse
  deeper : ∀ d, s.depth < d → s.fromAt d = false
  sources : ∀ i, i ∈ s.sources ↔ 0 < i ∧ i ≤ ms.length ∧ leads merge (ms.take i).reverse = true

theorem scanned_start (merge : Bool) : Scanned merge [] .start :=
  ⟨rfl, rfl, fun _ => rfl, fun _ _ => rfl, fun i => by simp [Scan.start]; omega⟩

theorem take_snoc_of_le {ms : List Mark} {m : Mark} {i : Nat} (h : i ≤ ms.length) : (ms ++ [m]).take i = ms.take i :=
  List.take_append_of_le_length h

theorem sources_snoc {merge : Bool} {ms : List Mark} {m : Mark} {s : Scan} (h : Scanned merge ms s) {found : List Nat}
    (hfound : found = if leads merge (m :: ms.reverse) then (s.pos + 1) :: s.sources else s.sources) (i : Nat) :
    i ∈ found ↔ 0 < i ∧ i ≤ (ms ++ [m]).length ∧ leads merge ((ms ++ [m]).take i).reverse = true := by
  have hlen : (ms ++ [m]).length = ms.length + 1 := by simp
  have hlast : ((ms ++ [m]).take (ms.length + 1)).reverse = m :: ms.reverse := by simp [List.take_of_length_le]
  have hold : i ∈ s.sources ↔ 0 < i ∧ i ≤ ms.length ∧ leads merge ((ms ++ [m]).take i).reverse = true := by
    rw [h.sources]
    constructor
    · rintro ⟨hpos, hle, hleads⟩
      exact ⟨hpos, hle, by rwa [take_snoc_of_le hle]⟩
    · rintro ⟨hpos, hle, hleads⟩
      exact ⟨hpos, hle, by rwa [take_snoc_of_le hle] at hleads⟩
  subst hfound
  by_cases heq : i = ms.length + 1
  · subst heq
    rw [hlast, hlen]
    split_ifs with hleads
    · simp [h.pos, hleads]
    · simp [hold, hleads]
  · have hiff : i ≤ (ms ++ [m]).length ↔ i ≤ ms.length := by omega
    rw [hiff, ← hold]
    split_ifs
    · simp [h.pos, heq]
    · rfl

section Step

variable {merge : Bool} {ms : List Mark} {m : Mark} {s s' : Scan}

theorem Scanned.sets (h : Scanned merge ms s) {b : Bool} (hpos : s'.pos = s.pos + 1) (hdepth : s'.depth = s.depth)
    (hfrom : s'.fromAt = Function.update s.fromAt s.depth b) (hlevel : bracketDepth (m :: ms.reverse) = bracketDepth ms.reverse)
    (hhere : inFrom 0 (m :: ms.reverse) = b) (hout : ∀ n, inFrom (n + 1) (m :: ms.reverse) = inFrom (n + 1) ms.reverse)
    (hfound : s'.sources = if leads merge (m :: ms.reverse) then (s.pos + 1) :: s.sources else s.sources) :
    Scanned merge (ms ++ [m]) s' := by
  refine ⟨by simp [hpos, h.pos], by simp [hdepth, h.depth, hlevel], fun n => ?_, fun d hd => ?_, sources_snoc h hfound⟩
  · rw [List.reverse_append, List.reverse_singleton, List.singleton_append, hfrom, hdepth]
    cases n with
    | zero => simp [hhere]
    | succ n =>
      rw [Function.update_of_ne (by omega), h.fromAt (n + 1), hout]
  · rw [hfrom, Function.update_of_ne (by omega)]
    exact h.deeper d (hdepth ▸ hd)

theorem Scanned.keeps (h : Scanned merge ms s) (hpos : s'.pos = s.pos + 1) (hdepth : s'.depth = s.depth)
    (hfrom : s'.fromAt = s.fromAt) (hlevel : bracketDepth (m :: ms.reverse) = bracketDepth ms.reverse)
    (hout : ∀ n, inFrom n (m :: ms.reverse) = inFrom n ms.reverse)
    (hfound : s'.sources = if leads merge (m :: ms.reverse) then (s.pos + 1) :: s.sources else s.sources) :
    Scanned merge (ms ++ [m]) s' := by
  refine h.sets hpos hdepth ?_ hlevel (hout 0) (fun n => hout (n + 1)) hfound
  have hflag : s.fromAt s.depth = inFrom 0 ms.reverse := by simpa using h.fromAt 0
  rw [hfrom, ← hflag, Function.update_eq_self]

theorem scanned_opens (h : Scanned merge ms s) : Scanned merge (ms ++ [.opens]) (s.step merge .opens) := by
  refine ⟨by simp [Scan.step, h.pos], by simp [Scan.step, h.depth, bracketDepth], fun n => ?_, fun d hd => ?_,
    sources_snoc h (by simp [Scan.step, leads])⟩
  · rw [List.reverse_append, List.reverse_singleton, List.singleton_append]
    cases n with
    | zero => exact h.deeper _ (by simp [Scan.step])
    | succ n =>
      have heq : (s.step merge .opens).depth - ((n + 1 : Nat) : Int) = s.depth - n := by simp [Scan.step]
      rw [heq]
      exact h.fromAt n
  · exact h.deeper d (by simp only [Scan.step] at hd; omega)

theorem scanned_closes (h : Scanned merge ms s) : Scanned merge (ms ++ [.closes]) (s.step merge .closes) := by
  refine ⟨by simp [Scan.step, h.pos], by simp [Scan.step, h.depth, bracketDepth], fun n => ?_, fun d hd => ?_,
    sources_snoc h (by simp [Scan.step, Scan.close, leads])⟩
  · have heq : (s.step merge .closes).depth - (n : Int) = s.depth - (n + 1 : Nat) := by simp [Scan.step]; omega
    rw [List.reverse_append, List.reverse_singleton, List.singleton_append, inFrom_closes, heq]
    exact (Function.update_of_ne (by omega) _ _).trans (h.fromAt (n + 1))
  · simp only [Scan.step] at hd
    by_cases heq : d = s.depth
    · subst heq
      exact Function.update_self _ _ _
    · exact (Function.update_of_ne heq _ _).trans (h.deeper d (by omega))

theorem scanned_step (h : Scanned merge ms s) (m : Mark) : Scanned merge (ms ++ [m]) (s.step merge m) := by
  have hflag : s.fromAt s.depth = inFrom 0 ms.reverse := by simpa using h.fromAt 0
  cases m with
  | opens => exact scanned_opens h
  | closes => exact scanned_closes h
  | source => exact h.sets rfl rfl rfl rfl rfl (fun _ => rfl) (by simp [Scan.step, Scan.found, leads])
  | comma =>
    refine h.keeps rfl ?_ ?_ rfl (fun n => inFrom_comma n _) ?_
    · simp only [Scan.step]
      split_ifs <;> rfl
    · simp only [Scan.step]
      split_ifs <;> rfl
    · simp only [Scan.step, leads, ← hflag]
      split_ifs <;> rfl
  | usingWord =>
    refine h.sets rfl ?_ ?_ rfl rfl (fun _ => rfl) ?_
    · simp only [Scan.step]
      split_ifs <;> rfl
    · simp only [Scan.step]
      split_ifs <;> rfl
    · simp only [Scan.step, leads, Bool.and_eq_true, decide_eq_true_eq, ← h.depth]
      split_ifs <;> rfl
  | ends => exact h.sets rfl rfl rfl rfl rfl (fun _ => rfl) (by simp [Scan.step, Scan.close, leads])
  | other => exact h.keeps rfl rfl rfl rfl (fun n => inFrom_other n _) (by simp [Scan.step, leads])

end Step

theorem scanned_run (merge : Bool) (ms : List Mark) : Scanned merge ms (ms.foldl (Scan.step merge) .start) := by
  induction ms using List.reverseRecOn with
  | nil => exact scanned_start merge
  | append_singleton ms m ih =>
    rw [List.foldl_append]
    exact scanned_step ih m

theorem mem_sources_iff {stmt : List Token} {i : Nat} (h : i ≤ stmt.length) :
    i ∈ sources stmt ↔ introduced stmt i = true := by
  have hlen : (marks stmt).length = stmt.length := by simp [marks]
  have hscan := (scanned_run (stmt.head?.any (Token.is · "MERGE")) (marks stmt)).sources i
  rw [hlen] at hscan
  refine hscan.trans ⟨fun hall => hall.2.2, fun hleads => ⟨?_, h, hleads⟩⟩
  rcases Nat.eq_zero_or_pos i with rfl | hpos
  · simp [introduced, leads] at hleads
  · exact hpos

end Scanning

section Walking

def Linked (a b : Token) : Prop := b.isName = true → (a.punct "." || a.punct "-") = true

theorem not_isName_of_punct {t : Token} {p : String} (h : t.punct p = true) : t.isName = false := by
  simp only [Token.punct, Bool.and_eq_true, decide_eq_true_eq] at h
  simp [Token.isName, h.1]

theorem dashes_used (name : Bytes) (ts : List Token) :
    ∃ used, ts = used ++ (dashes name ts).2 ∧ used.IsChain Linked ∧ ∀ t ∈ used.head?, t.isName = false := by
  fun_induction dashes name ts with
  | case1 name dash w ts hdash ih =>
    obtain ⟨used, hsplit, hchain, hhead⟩ := ih
    refine ⟨dash :: w :: used, by rw [List.cons_append, List.cons_append, ← hsplit], ?_, ?_⟩
    · refine List.isChain_cons_cons.mpr ⟨fun _ => by simp [hdash.1], List.isChain_cons.mpr ⟨fun t ht hname => ?_, hchain⟩⟩
      rw [hhead t ht] at hname
      cases hname
    · intro t ht
      obtain rfl := Option.some.inj ht
      exact not_isName_of_punct hdash.1
  | case2 name dash w ts hdash => exact ⟨[], rfl, .nil, by simp⟩
  | case3 name ts hts => exact ⟨[], rfl, .nil, by simp⟩

theorem pathName_used {first : Bool} {t : Token} {ts rest : List Token} {parts : List Bytes}
    (h : pathName first t ts = some (parts, rest)) :
    ∃ used, ts = used ++ rest ∧ (t :: used).IsChain Linked := by
  unfold pathName at h
  split at h
  · obtain ⟨-, rfl⟩ := Prod.mk.inj (Option.some.inj h)
    exact ⟨[], rfl, .singleton _⟩
  · obtain ⟨-, rfl⟩ := Prod.mk.inj (Option.some.inj h)
    split_ifs
    · obtain ⟨used, hsplit, hchain, hhead⟩ := dashes_used t.text ts
      refine ⟨used, hsplit, List.isChain_cons.mpr ⟨fun t ht hname => ?_, hchain⟩⟩
      rw [hhead t ht] at hname
      cases hname
    · exact ⟨[], rfl, .singleton _⟩
  · cases h

theorem pathName_isSome (first : Bool) (t : Token) (ts : List Token) : (pathName first t ts).isSome = t.isName := by
  unfold pathName Token.isName
  cases t.kind <;> rfl

theorem pathFrom_takes (first : Bool) {fuel : Nat} {t : Token} (ts : List Token) (ht : t.isName = true)
    (hrest : ∀ rest, ∃ used, rest = used ++ (pathFrom false fuel rest).2 ∧ used.IsChain Linked) :
    ∃ used, ts = used ++ (pathFrom first (fuel + 1) (t :: ts)).2 ∧ (t :: used).IsChain Linked := by
  obtain ⟨⟨parts, rest⟩, hname⟩ := Option.isSome_iff_exists.mp ((pathName_isSome first t ts).trans ht)
  obtain ⟨used, hsplit, hchain⟩ := pathName_used hname
  simp only [pathFrom, hname]
  cases rest with
  | nil => exact ⟨used, hsplit, hchain⟩
  | cons dot rest =>
    by_cases hdot : dot.punct "." = true
    · obtain ⟨more, hmore, hlinked⟩ := hrest rest
      refine ⟨used ++ dot :: more, ?_, ?_⟩
      · simp only [hdot, if_true]
        rw [List.append_assoc, List.cons_append, ← hmore]
        exact hsplit
      · refine List.isChain_append.mpr ⟨hchain, List.isChain_cons.mpr ⟨fun _ _ _ => by simp [hdot], hlinked⟩, ?_⟩
        intro _ _ y hy hyname
        obtain rfl := Option.some.inj hy
        rw [not_isName_of_punct hdot] at hyname
        cases hyname
    · simp only [hdot]
      exact ⟨used, hsplit, hchain⟩

theorem pathFrom_used (first : Bool) (fuel : Nat) (ts : List Token) :
    ∃ used, ts = used ++ (pathFrom first fuel ts).2 ∧ used.IsChain Linked := by
  induction fuel generalizing first ts with
  | zero => exact ⟨[], rfl, .nil⟩
  | succ fuel ih =>
    cases ts with
    | nil => exact ⟨[], rfl, .nil⟩
    | cons t ts =>
      by_cases ht : t.isName = true
      · obtain ⟨used, hsplit, hchain⟩ := pathFrom_takes first ts ht (ih false)
        exact ⟨t :: used, by rw [List.cons_append, ← hsplit], hchain⟩
      · have hnone : pathName first t ts = none := by
          rw [← Option.not_isSome_iff_eq_none, pathName_isSome]
          exact ht
        exact ⟨[], by simp [pathFrom, hnone], .nil⟩

theorem path_takes {t : Token} (ts : List Token) (ht : t.isName = true) :
    ∃ used, ts = used ++ (path (t :: ts)).2 ∧ (t :: used).IsChain Linked :=
  pathFrom_takes true ts ht (pathFrom_used false ts.length)

variable {skip : Token → Bool} {pos fuel : Nat} {t : Token} {ts : List Token}

theorem walk_skips (h : (!t.isName || skip t) = true) :
    walk skip pos (fuel + 1) (t :: ts) = walk skip (pos + 1) fuel ts := by
  rw [walk, if_pos h]

def visitAt (pos : Nat) (ts : List Token) : Visit := ⟨pos, (path ts).1, (path ts).2⟩

theorem walk_visits {used : List Token} (h : (!t.isName || skip t) = false) (hused : ts = used ++ (path (t :: ts)).2) :
    walk skip pos (fuel + 1) (t :: ts) =
      visitAt pos (t :: ts) :: walk skip (pos + (used.length + 1)) fuel ((t :: ts).drop (used.length + 1)) := by
  have hlen : (t :: ts).length - (path (t :: ts)).2.length = used.length + 1 := by
    have htotal := congrArg List.length hused
    rw [List.length_append] at htotal
    rw [List.length_cons]
    omega
  have hdrop : (t :: ts).drop (used.length + 1) = (path (t :: ts)).2 := by
    conv_lhs => rw [List.drop_succ_cons, hused, List.drop_left]
  rw [walk, if_neg (by simp [h]), hdrop, ← hlen]
  rfl

theorem walk_spec {v : Visit} (h : v ∈ walk skip pos fuel ts) :
    ∃ i, v = visitAt (pos + i) (ts.drop i) ∧ ∃ t, ts[i]? = some t ∧ t.isName = true ∧ skip t = false := by
  induction fuel generalizing pos ts with
  | zero => simp [walk] at h
  | succ fuel ih =>
    cases ts with
    | nil => simp [walk] at h
    | cons t ts =>
      cases hskip : !t.isName || skip t with
      | true =>
        rw [walk_skips hskip] at h
        obtain ⟨i, rfl, hi⟩ := ih h
        exact ⟨i + 1, by rw [Nat.add_assoc, Nat.add_comm 1, List.drop_succ_cons], hi⟩
      | false =>
        have ht : t.isName = true ∧ skip t = false := by simpa using hskip
        obtain ⟨used, hsplit, -⟩ := path_takes ts ht.1
        rw [walk_visits hskip hsplit] at h
        rcases List.mem_cons.mp h with rfl | h
        · exact ⟨0, rfl, t, rfl, ht⟩
        · obtain ⟨i, rfl, hi⟩ := ih h
          rw [List.getElem?_drop] at hi
          exact ⟨used.length + 1 + i, by rw [Nat.add_assoc, List.drop_drop], hi⟩

theorem mem_walk (pos : Nat) {i : Nat} (hfuel : ts.length ≤ fuel) (hi : ts[i]? = some t) (ht : t.isName = true) (hskip : skip t = false)
    (hstart : ∀ j a, i = j + 1 → ts[j]? = some a → (a.punct "." || a.punct "-") = false) :
    visitAt (pos + i) (ts.drop i) ∈ walk skip pos fuel ts := by
  induction fuel generalizing pos ts i with
  | zero =>
    obtain rfl := List.length_eq_zero_iff.mp (Nat.le_zero.mp hfuel)
    simp at hi
  | succ fuel ih =>
    cases ts with
    | nil => simp at hi
    | cons u ts =>
      have hts : ts.length ≤ fuel := Nat.le_of_succ_le_succ hfuel
      cases hu : !u.isName || skip u with
      | true =>
        rw [walk_skips hu]
        cases i with
        | zero =>
          obtain rfl := Option.some.inj hi
          simp [ht, hskip] at hu
        | succ i =>
          rw [Nat.add_comm i, ← Nat.add_assoc, Nat.add_comm 1, List.drop_succ_cons]
          exact ih _ hts hi fun j a hj ha => hstart (j + 1) a (by rw [hj]) ha
      | false =>
        have huname : u.isName = true ∧ skip u = false := by simpa using hu
        obtain ⟨used, hsplit, hchain⟩ := path_takes ts huname.1
        rw [walk_visits hu hsplit]
        by_cases hin : i < used.length + 1
        · cases i with
          | zero => exact List.mem_cons_self
          | succ i =>
            -- a name inside the path would come after a link
            have hsame : ∀ k, k < (u :: used).length → (u :: ts)[k]? = (u :: used)[k]? := by
              intro k hk
              conv_lhs => rw [hsplit, ← List.cons_append, List.getElem?_append_left hk]
            have hlast : i < (u :: used).length := by simpa using Nat.lt_of_succ_lt hin
            have hlink := hchain.getElem i (by simpa using hin)
            rw [hsame _ (by simpa using hin)] at hi
            obtain ⟨hlt, rfl⟩ := List.getElem?_eq_some_iff.mp hi
            have hprev := hstart i _ rfl ((hsame i hlast).trans (List.getElem?_eq_getElem hlast))
            rw [hlink ht] at hprev
            cases hprev
        · obtain ⟨k, rfl⟩ := Nat.exists_eq_add_of_le (Nat.le_of_not_lt hin)
          refine List.mem_cons_of_mem _ ?_
          have hpos : pos + (used.length + 1 + k) = pos + (used.length + 1) + k := (Nat.add_assoc _ _ _).symm
          have hdrop : (u :: ts).drop (used.length + 1 + k) = ((u :: ts).drop (used.length + 1)).drop k :=
            List.drop_drop.symm
          rw [hpos, hdrop]
          refine ih _ ?_ (by rwa [List.getElem?_drop]) fun j a hj ha => ?_
          · rw [List.drop_succ_cons, List.length_drop]
            omega
          · rw [List.getElem?_drop] at ha
            exact hstart (used.length + 1 + j) a (by omega) ha

theorem visits_spec {v : Visit} (h : v ∈ visits skip ts) :
    v = visitAt v.pos (ts.drop v.pos) ∧ ∃ t, ts[v.pos]? = some t ∧ t.isName = true ∧ skip t = false := by
  obtain ⟨i, rfl, hi⟩ := walk_spec h
  rw [Nat.zero_add]
  exact ⟨rfl, hi⟩

theorem mem_visits {i : Nat} (hstart : startsPath ts i = true) (hi : ts[i]? = some t) (hskip : skip t = false) :
    visitAt i (ts.drop i) ∈ visits skip ts := by
  simp only [startsPath, hi, Option.any_some, Bool.and_eq_true, Bool.or_eq_true, decide_eq_true_eq] at hstart
  have hmem := mem_walk 0 le_rfl hi hstart.1 hskip fun j a hj ha => ?_
  · rwa [Nat.zero_add] at hmem
  · subst hj
    simpa [ha] using hstart.2

theorem mark_of_link {stmt : List Token} {i : Nat} (h : (t.punct "." || t.punct "-") = true) :
    mark stmt i t = .other := by
  simp only [Token.punct, Bool.or_eq_true, Bool.and_eq_true, decide_eq_true_eq] at h
  have hkind : t.kind = .punct := by rcases h with h | h <;> exact h.1
  have htext : t.text ≠ ascii "(" ∧ t.text ≠ ascii "[" ∧ t.text ≠ ascii ")" ∧ t.text ≠ ascii "]" ∧ t.text ≠ ascii "," := by
    rcases h with h | h <;> rw [h.2] <;> decide
  simp [mark, opensBracket, closesBracket, Token.punct, Token.is, Token.isAny, hkind, htext]

theorem startsPath_of_introduced {i : Nat} (hi : ts[i]? = some t) (ht : t.isName = true) (h : introduced ts i = true) :
    startsPath ts i = true := by
  cases i with
  | zero => simp [introduced, leads] at h
  | succ j =>
    have hlt : j < ts.length := Nat.lt_of_succ_lt (List.getElem?_eq_some_iff.mp hi).1
    have hmark : (marks ts)[j]? = some (mark ts j ts[j]) := by simp [marks, hlt]
    have hnot : ¬(ts[j].punct "." || ts[j].punct "-") = true := by
      intro hlink
      rw [mark_of_link hlink] at hmark
      rw [introduced, List.take_add_one, hmark, Option.toList_some, List.reverse_append] at h
      cases h
    simp only [startsPath, hi, Option.any_some, ht, Nat.add_sub_cancel, List.getElem?_eq_getElem hlt]
    simpa using hnot

end Walking

section Collecting

variable {α β ε : Type} {f : α → Except ε (List β)} {as : List α} {bs : List β}

theorem collect_cons {a : α} (h : collect f (a :: as) = .ok bs) :
    ∃ first rest, f a = .ok first ∧ collect f as = .ok rest ∧ bs = first ++ rest := by
  simp only [collect] at h
  cases hfirst : f a with
  | error e => simp [hfirst, bind, Except.bind] at h
  | ok first =>
    cases hrest : collect f as with
    | error e => simp [hfirst, hrest, bind, Except.bind] at h
    | ok rest =>
      simp only [hfirst, hrest, bind, Except.bind, pure, Except.pure, Except.ok.injEq] at h
      exact ⟨first, rest, rfl, rfl, h.symm⟩

theorem collect_each (h : collect f as = .ok bs) {a : α} (ha : a ∈ as) : ∃ some, f a = .ok some ∧ some ⊆ bs := by
  induction as generalizing bs with
  | nil => cases ha
  | cons x as ih =>
    obtain ⟨first, rest, hfirst, hrest, rfl⟩ := collect_cons h
    rcases List.mem_cons.mp ha with rfl | ha
    · exact ⟨first, hfirst, List.subset_append_left _ _⟩
    · obtain ⟨found, hfound, hsub⟩ := ih hrest ha
      exact ⟨found, hfound, List.subset_append_of_subset_right _ hsub⟩

theorem collect_from (h : collect f as = .ok bs) {b : β} (hb : b ∈ bs) : ∃ a ∈ as, ∃ found, f a = .ok found ∧ b ∈ found := by
  induction as generalizing bs with
  | nil =>
    cases h
    cases hb
  | cons x as ih =>
    obtain ⟨first, rest, hfirst, hrest, rfl⟩ := collect_cons h
    rcases List.mem_append.mp hb with hb | hb
    · exact ⟨x, List.mem_cons_self, first, hfirst, hb⟩
    · obtain ⟨a, ha, hfound⟩ := ih hrest hb
      exact ⟨a, List.mem_cons_of_mem _ ha, hfound⟩

end Collecting

end CloudBurrow.BigQuery
