import CloudBurrow.BigQuery.Filtering

namespace CloudBurrow.BigQuery

open Utf8

section Property

variable {Row : Type} (selects : Bytes → Row → Bool) (db : Catalog)

def kept (t : Table) (rows : List Row) : List Row := rows.filter fun row => (db.policyFilter t).any (selects · row)

def Replaced (edits : List Edit) (item : Item) : Prop :=
  ∃ e ∈ edits, item.place = some (e.stmt, e.pos) ∧ e.table = item.table

def ReadsRaw (sql : Sql) (edits : List Edit) (t : Table) : Prop :=
  ∃ item ∈ sql.items, Reaches db item.table t ∧ (Replaced edits item → t ≠ item.table)

def ReadsOnly {Ans : Type} (answer : Sql → List Edit → (Table → List Row) → Ans) : Prop :=
  ∀ sql edits c c', (∀ t, ReadsRaw db sql edits t → c t = c' t) →
    (∀ e ∈ edits, kept selects db e.table (c e.table) = kept selects db e.table (c' e.table)) →
    answer sql edits c = answer sql edits c'

def Agree (c c' : Table → List Row) : Prop :=
  ∀ t, if db.isProtected t then kept selects db t (c t) = kept selects db t (c' t) else c t = c' t

def Hides (sql : Sql) (edits : List Edit) : Prop :=
  ∀ (Ans : Type) (answer : Sql → List Edit → (Table → List Row) → Ans), ReadsOnly selects db answer →
    ∀ c c', Agree selects db c c' → answer sql edits c = answer sql edits c'

def AllShown (sql : Sql) : Prop :=
  ∀ item ∈ sql.items, ∀ t, db.isProtected t = true → (∃ row : Row, kept selects db t [row] = []) →
    Reaches db item.table t → shown db sql item = true ∧ Follows db item.table t

end Property

section Statements

variable {db : Catalog} {k offset : Nat} {body : List Token} {visit : Visit} {t : Table} {edits : List Edit}

theorem mem_tables_of_isProtected (h : db.isProtected t = true) : ∃ p ∈ db.tables, p.table = t := by
  cases hfind : db.tables.find? fun p => p.table = t with
  | none => simp [Records.isProtected, Records.livePolicies, hfind] at h
  | some p => exact ⟨p, List.mem_of_find?_eq_some hfind, by simpa using List.find?_some hfind⟩

theorem policiesInProject_of_isProtected (h : db.isProtected t = true) : db.policiesInProject = true := by
  obtain ⟨p, hp, rfl⟩ := mem_tables_of_isProtected h
  exact List.any_eq_true.mpr ⟨p, hp, h⟩

theorem filterPath_edit {e : Edit} (h : filterPath db k offset body visit = .ok edits) (he : e ∈ edits) :
    e.stmt = k ∧ e.pos = offset + visit.pos ∧ resolve db.project visit.parts = some e.table ∧
      wildcard visit e.table.2 = none ∧ visit.pos ∈ sources body ∧ db.isProtected e.table = true := by
  unfold filterPath at h
  split at h
  · cases h
    cases he
  rename_i t hresolve
  split at h
  · split_ifs at h
    cases h
    cases he
  rename_i hwild
  split_ifs at h with hdml hsource hcall hprotected htravel
  · cases h
    obtain rfl := List.mem_singleton.mp he
    exact ⟨rfl, rfl, hresolve, hwild, hsource, hprotected⟩
  · split at h
    · cases h
    · cases h
      cases he
  · cases h
    cases he

theorem filterPath_replaces (h : filterPath db k offset body visit = .ok edits)
    (hresolve : resolve db.project visit.parts = some t) (hwild : wildcard visit t.2 = none)
    (hsource : visit.pos ∈ sources body) (hprotected : db.isProtected t = true) :
    ∃ e ∈ edits, e.stmt = k ∧ e.pos = offset + visit.pos ∧ e.table = t := by
  simp only [filterPath, hresolve, hwild] at h
  split_ifs at h
  cases h
  exact ⟨_, List.mem_singleton_self _, rfl, rfl, rfl⟩

theorem filterPath_view (h : filterPath db k offset body visit = .ok edits)
    (hresolve : resolve db.project visit.parts = some t) (hwild : wildcard visit t.2 = none)
    (hsource : visit.pos ∈ sources body) (hprotected : db.isProtected t = false) : viewReadsProtected db 5 t = none := by
  simp only [filterPath, hresolve, hwild, hprotected, hsource, and_false, Bool.false_eq_true, if_false, if_true] at h
  split_ifs at h
  split at h
  · cases h
  · assumption

theorem filterPath_wildcard {w : Table} {start : Bytes} (h : filterPath db k offset body visit = .ok edits)
    (hresolve : resolve db.project visit.parts = some w) (hwild : wildcard visit w.2 = some start)
    (hdataset : w.1 = t.1) (hstart : start.isPrefixOf t.2 = true) : db.isProtected t = false := by
  by_contra hprotected
  rw [Bool.not_eq_false] at hprotected
  obtain ⟨p, hp, rfl⟩ := mem_tables_of_isProtected hprotected
  have hany : (db.tables.any fun p => p.table.1 = w.1 && start.isPrefixOf p.table.2 && db.isProtected p.table) = true :=
    List.any_eq_true.mpr ⟨p, hp, by simp [hdataset, hstart, hprotected]⟩
  simp only [filterPath, hresolve, hwild, hany, if_true] at h
  cases h

theorem filterQuery_statement {sql : Sql} {toks stmt : List Token} (h : filterQuery db sql = .ok edits)
    (hpolicies : db.isProtected t = true) (htoks : sql.toks = some toks) (hstmt : (splitStatements toks)[k]? = some stmt) :
    ∃ found, filterStatement db k stmt = .ok found ∧ found ⊆ edits := by
  simp only [filterQuery, policiesInProject_of_isProtected hpolicies, if_true, htoks] at h
  have hmem : (stmt, k) ∈ (splitStatements toks).zipIdx := List.mem_zipIdx_iff_getElem?.mpr hstmt
  exact collect_each h hmem

theorem filterQuery_path {sql : Sql} {toks stmt : List Token} (h : filterQuery db sql = .ok edits)
    (hpolicies : db.isProtected t = true) (htoks : sql.toks = some toks) (hstmt : (splitStatements toks)[k]? = some stmt)
    (hvisit : visit ∈ visits Token.reserved (stripControlFlow stmt)) :
    ∃ found, filterPath db k (stmt.length - (stripControlFlow stmt).length) (stripControlFlow stmt) visit = .ok found ∧
      found ⊆ edits := by
  obtain ⟨found, hfound, hsub⟩ := filterQuery_statement h hpolicies htoks hstmt
  obtain ⟨some, hsome, hin⟩ := collect_each hfound hvisit
  exact ⟨some, hsome, List.Subset.trans hin hsub⟩

theorem filterQuery_edit {sql : Sql} {e : Edit} (h : filterQuery db sql = .ok edits) (he : e ∈ edits) :
    ∃ toks stmt, sql.toks = some toks ∧ (splitStatements toks)[e.stmt]? = some stmt ∧
      ∃ visit ∈ visits Token.reserved (stripControlFlow stmt),
        e.pos = stmt.length - (stripControlFlow stmt).length + visit.pos ∧
        resolve db.project visit.parts = some e.table ∧ wildcard visit e.table.2 = none ∧
        visit.pos ∈ sources (stripControlFlow stmt) ∧ db.isProtected e.table = true := by
  simp only [filterQuery] at h
  split_ifs at h
  · split at h
    · cases h
      cases he
    · rename_i toks htoks
      obtain ⟨⟨stmt, k⟩, hmem, found, hfound, hin⟩ := collect_from h he
      obtain ⟨visit, hvisit, some, hsome, hedit⟩ := collect_from hfound hin
      obtain ⟨hk, hpos, hrest⟩ := filterPath_edit hsome hedit
      subst hk
      exact ⟨toks, stmt, htoks, List.mem_zipIdx_iff_getElem?.mp hmem, visit, hvisit, hpos, hrest⟩
  · cases h
    cases he

end Statements

section Items

variable {db : Catalog} {sql : Sql} {item : Item} {edits : List Edit}

theorem shown_iff : shown db sql item = true ↔ ∃ toks k stmt j t, sql.toks = some toks ∧
    (splitStatements toks)[k]? = some stmt ∧
    item.place = some (k, stmt.length - (stripControlFlow stmt).length + j) ∧
    (stripControlFlow stmt)[j]? = some t ∧ t.isName = true ∧ t.reserved = false ∧
    (namesAt db (stripControlFlow stmt) j item.table = true ∧ introduced (stripControlFlow stmt) j = true ∨
      wildcardAt db (stripControlFlow stmt) j item.table = true ∧ startsPath (stripControlFlow stmt) j = true) := by
  constructor
  · intro h
    unfold shown at h
    split at h
    · rename_i toks k i htoks hplace
      obtain ⟨stmt, hstmt, h⟩ := (Option.any_eq_true _ _).mp h
      simp only [Bool.and_eq_true, Bool.or_eq_true, decide_eq_true_eq, Option.any_eq_true, Bool.not_eq_true'] at h
      obtain ⟨⟨hle, t, ht, hname, hreserved⟩, hway⟩ := h
      exact ⟨toks, k, stmt, _, t, htoks, hstmt, by rw [Nat.add_sub_cancel' hle]; exact hplace, ht, hname, hreserved, hway⟩
    · cases h
  · rintro ⟨toks, k, stmt, j, t, htoks, hstmt, hplace, ht, hname, hreserved, hway⟩
    simp only [shown, htoks, hplace, hstmt, Option.any_some, Nat.add_sub_cancel_left, ht, hname, hreserved]
    simpa using hway

theorem namesAt_iff {ts : List Token} {i : Nat} {t : Table} : namesAt db ts i t = true ↔
    resolve db.project (visitAt i (ts.drop i)).parts = some t ∧ wildcard (visitAt i (ts.drop i)) t.2 = none := by
  simp [namesAt, visitAt]

theorem filterPath_of_shown {t : Table} (h : filterQuery db sql = .ok edits) (hpolicies : db.isProtected t = true)
    (hshown : shown db sql item = true) : ∃ k offset body visit found, item.place = some (k, offset + visit.pos) ∧
      filterPath db k offset body visit = .ok found ∧ found ⊆ edits ∧
      resolve db.project visit.parts = some item.table ∧ wildcard visit item.table.2 = none ∧
      visit.pos ∈ sources body := by
  obtain ⟨toks, k, stmt, j, word, htoks, hstmt, hplace, hword, hname, hreserved, hway⟩ := shown_iff.mp hshown
  have hstart : startsPath (stripControlFlow stmt) j = true :=
    hway.elim (fun hway => startsPath_of_introduced hword hname hway.2) And.right
  obtain ⟨found, hfound, hsub⟩ := filterQuery_path h hpolicies htoks hstmt (mem_visits hstart hword hreserved)
  refine ⟨k, _, _, _, found, hplace, hfound, hsub, ?_⟩
  rcases hway with ⟨hnames, hintro⟩ | ⟨hwild, -⟩
  · have hlt : j < (stripControlFlow stmt).length := (List.getElem?_eq_some_iff.mp hword).1
    obtain ⟨hresolve, hwild⟩ := namesAt_iff.mp hnames
    exact ⟨hresolve, hwild, (mem_sources_iff hlt.le).mpr hintro⟩
  · -- a wildcard for a table with policies is refused
    simp only [wildcardAt, Option.any_eq_true, Bool.and_eq_true, decide_eq_true_eq] at hwild
    obtain ⟨w, hresolve, start, hwild, ⟨hdataset, hstart⟩, hprotected⟩ := hwild
    rw [filterPath_wildcard hfound hresolve hwild hdataset hstart] at hprotected
    cases hprotected

theorem replaced_of_shown (h : filterQuery db sql = .ok edits) (hshown : shown db sql item = true)
    (hprotected : db.isProtected item.table = true) : Replaced edits item := by
  obtain ⟨k, offset, body, visit, found, hplace, hfound, hsub, hresolve, hwild, hsource⟩ :=
    filterPath_of_shown h hprotected hshown
  obtain ⟨e, he, rfl, hpos, htable⟩ := filterPath_replaces hfound hresolve hwild hsource hprotected
  exact ⟨e, hsub he, by rw [hplace, hpos], htable⟩

theorem shown_of_replaced (h : filterQuery db sql = .ok edits) (hreplaced : Replaced edits item) :
    shown db sql item = true := by
  obtain ⟨e, he, hplace, htable⟩ := hreplaced
  obtain ⟨toks, stmt, htoks, hstmt, visit, hvisit, hpos, hresolve, hwild, hsource, -⟩ := filterQuery_edit h he
  obtain ⟨hat, word, hword, hname, hreserved⟩ := visits_spec hvisit
  have hlt : visit.pos < (stripControlFlow stmt).length := (List.getElem?_eq_some_iff.mp hword).1
  rw [hat] at hresolve hwild
  rw [htable] at hresolve hwild
  exact shown_iff.mpr ⟨toks, e.stmt, stmt, visit.pos, word, htoks, hstmt, by rw [hplace, hpos], hword, hname, hreserved,
    .inl ⟨namesAt_iff.mpr ⟨hresolve, hwild⟩, (mem_sources_iff hlt.le).mp hsource⟩⟩

end Items

section Views

variable {db : Catalog} {v t : Table}

theorem view_unprotected {sql : Sql} (h : db.view v = some sql) : db.isProtected v = false := by
  by_contra hprotected
  rw [db.tablesOnly v (Bool.not_eq_false _ ▸ hprotected)] at h
  cases h

theorem viewReadsProtected_of_follows (h : Follows db v t) (hprotected : db.isProtected t = true) (hne : v ≠ t) (n : Nat) :
    viewReadsProtected db n v ≠ none := by
  induction h generalizing n with
  | self t => exact absurd rfl hne
  | @view v t sql item hview hitem hfound hfollows ih =>
    cases n with
    | zero => simp [viewReadsProtected, hview]
    | succ n =>
      by_cases hself : item.table = v
      · exact hself ▸ ih hprotected (hself ▸ hne) (n + 1)
      · unfold found at hfound
        split at hfound
        · rename_i toks i htoks hplace
          simp only [Bool.and_eq_true, decide_eq_true_eq] at hfound
          obtain ⟨hstart, hresolve⟩ := hfound
          obtain ⟨word, hword⟩ : ∃ word, toks[i]? = some word := by
            rw [startsPath, Bool.and_eq_true, Option.any_eq_true] at hstart
            exact ⟨hstart.1.choose, hstart.1.choose_spec.1⟩
          intro hnone
          simp only [viewReadsProtected, hview, Option.bind_some, htoks, List.findSome?_eq_none_iff] at hnone
          have hat := hnone _ (mem_visits hstart hword rfl)
          simp only [visitAt, hresolve, hself, if_false] at hat
          split_ifs at hat with htable
          refine ih hprotected (fun heq => htable ?_) n hat
          rw [heq, hprotected]
        · cases hfound

end Views

section Answers

variable {Row : Type} {selects : Bytes → Row → Bool} {db : Catalog} {sql : Sql} {edits : List Edit}

theorem kept_all {t : Table} (h : ¬∃ row : Row, kept selects db t [row] = []) (rows : List Row) :
    kept selects db t rows = rows := by
  refine List.filter_eq_self.mpr fun row _ => ?_
  by_contra hrow
  exact h ⟨row, by simp [kept, hrow]⟩

theorem not_readsRaw {t : Table} (h : filterQuery db sql = .ok edits) (hall : AllShown selects db sql)
    (hprotected : db.isProtected t = true) (hhidden : ∃ row : Row, kept selects db t [row] = []) :
    ¬ReadsRaw db sql edits t := by
  rintro ⟨item, hitem, hreaches, hraw⟩
  obtain ⟨hshown, hfollows⟩ := hall item hitem t hprotected hhidden hreaches
  by_cases hself : item.table = t
  · exact hraw (replaced_of_shown h hshown (hself ▸ hprotected)) hself.symm
  · have hview : db.isProtected item.table = false := by
      cases hfollows with
      | self => exact absurd rfl hself
      | view hview _ _ _ => exact view_unprotected hview
    obtain ⟨k, offset, body, visit, found, -, hfound, -, hresolve, hwild, hsource⟩ :=
      filterPath_of_shown h hprotected hshown
    exact viewReadsProtected_of_follows hfollows hprotected hself 5 (filterPath_view hfound hresolve hwild hsource hview)

theorem hides_of_allShown (h : filterQuery db sql = .ok edits) (hall : AllShown selects db sql) :
    Hides selects db sql edits := by
  intro Ans answer hreads c c' hagree
  refine hreads sql edits c c' (fun t hraw => ?_) fun e he => ?_
  · have ht := hagree t
    split_ifs at ht with hprotected
    · by_cases hhidden : ∃ row : Row, kept selects db t [row] = []
      · exact absurd hraw (not_readsRaw h hall hprotected hhidden)
      · rwa [kept_all hhidden, kept_all hhidden] at ht
    · exact ht
  · obtain ⟨_, _, _, _, _, _, _, _, _, _, hprotected⟩ := filterQuery_edit h he
    have ht := hagree e.table
    rwa [if_pos hprotected] at ht

noncomputable def reveal (db : Catalog) (t : Table) (sql : Sql) (edits : List Edit) (c : Table → List Row) :
    Option (List Row) :=
  open Classical in if ReadsRaw db sql edits t then some (c t) else none

theorem readsOnly_reveal (t : Table) : ReadsOnly selects db (reveal db t) := by
  intro sql edits c c' hraw _
  unfold reveal
  split_ifs with ht
  · rw [hraw t ht]
  · rfl

theorem allShown_of_hides (h : filterQuery db sql = .ok edits) (hhides : Hides selects db sql edits) :
    AllShown selects db sql := by
  intro item hitem t hprotected ⟨row, hrow⟩ hreaches
  by_contra hnot
  have hraw : ReadsRaw db sql edits t := by
    refine ⟨item, hitem, hreaches, fun hreplaced heq => hnot ⟨shown_of_replaced h hreplaced, ?_⟩⟩
    rw [heq]
    exact .self _
  have hagree : Agree selects db (fun u => if u = t then [row] else []) fun _ => [] := by
    intro u
    by_cases hu : u = t
    · subst hu
      simpa [hprotected, kept] using hrow
    · simp [hu]
  have hsame := hhides _ (reveal db t) (readsOnly_reveal t) _ _ hagree
  simp [reveal, hraw] at hsame

theorem filterQuery_hides (h : filterQuery db sql = .ok edits) :
    Hides selects db sql edits ↔ AllShown selects db sql :=
  ⟨allShown_of_hides h, hides_of_allShown h⟩

def word (s : String) : Token := ⟨.word, ascii s, false⟩

def sign (s : String) : Token := ⟨.punct, ascii s, false⟩

def tableNamed (s : String) : Table := (ascii "ds", ascii s)

def guarded : Catalog where
  project := ascii "p"
  tables := [⟨tableNamed "secret", ascii "7", [⟨ascii "own", [ascii "allUsers"]⟩]⟩]
  tableInfo t := if t ∈ [tableNamed "secret", tableNamed "a", tableNamed "b"] then some ⟨ascii "7", none⟩ else none
  tablesOnly t _ := by
    simp only [Records.view]
    split_ifs <;> rfl

def ownRows (filter : Bytes) (row : Bool) : Bool := filter = ascii "own" && row

def joinedRead : Sql :=
  ⟨some [word "SELECT", sign "*", word "FROM", word "ds", sign ".", word "a", word "JOIN", word "ds", sign ".", word "secret",
      word "ON", word "TRUE"],
    [⟨tableNamed "a", some (0, 3)⟩, ⟨tableNamed "secret", some (0, 7)⟩]⟩

theorem guarded_reaches {v t : Table} (h : Reaches guarded v t) : v = t := by
  cases h with
  | self => rfl
  | view hview _ _ =>
    simp only [Records.view, guarded] at hview
    split_ifs at hview
    all_goals cases hview

theorem filterQuery_hides_joinedRead :
    filterQuery guarded joinedRead = .ok [⟨0, 7, tableNamed "secret", [ascii "own"], true⟩] ∧
      Hides ownRows guarded joinedRead [⟨0, 7, tableNamed "secret", [ascii "own"], true⟩] := by
  have hsent : filterQuery guarded joinedRead = .ok [⟨0, 7, tableNamed "secret", [ascii "own"], true⟩] := by decide +kernel
  refine ⟨hsent, (filterQuery_hides hsent).mpr fun item hitem t hprotected _ hreaches => ?_⟩
  obtain rfl := guarded_reaches hreaches
  have hread : ∀ item ∈ joinedRead.items, guarded.isProtected item.table = true →
      item = ⟨tableNamed "secret", some (0, 7)⟩ := by decide +kernel
  rw [hread item hitem hprotected]
  exact ⟨by decide +kernel, .self _⟩

def commaAfterOn : Sql :=
  ⟨some [word "SELECT", sign "*", word "FROM", word "ds", sign ".", word "a", word "JOIN", word "ds", sign ".", word "b",
      word "ON", word "TRUE", sign ",", word "ds", sign ".", word "secret"],
    [⟨tableNamed "a", some (0, 3)⟩, ⟨tableNamed "b", some (0, 7)⟩, ⟨tableNamed "secret", some (0, 13)⟩]⟩

theorem filterQuery_leaks_commaAfterOn :
    guarded.isProtected (tableNamed "secret") = true ∧ filterQuery guarded commaAfterOn = .ok [] ∧
      ¬Hides ownRows guarded commaAfterOn [] := by
  have hsent : filterQuery guarded commaAfterOn = .ok [] := by decide +kernel
  refine ⟨by decide +kernel, hsent, fun hhides => ?_⟩
  have hshown := allShown_of_hides hsent hhides ⟨tableNamed "secret", some (0, 13)⟩ (by decide +kernel)
    (tableNamed "secret") (by decide +kernel) ⟨false, by decide +kernel⟩ (.self _)
  have hnot : shown guarded commaAfterOn ⟨tableNamed "secret", some (0, 13)⟩ = false := by decide +kernel
  rw [hnot] at hshown
  cases hshown.1

end Answers

end CloudBurrow.BigQuery
