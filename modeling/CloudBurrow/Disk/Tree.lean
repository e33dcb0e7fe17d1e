import CloudBurrow.Codec.Utf8

namespace CloudBurrow.FileTree

abbrev Name := List UInt8

abbrev Path := List Name

inductive Node where
  | dir
  | file (content : List UInt8)
deriving DecidableEq

abbrev Tree := List (Path × Node)

namespace Tree

def node (t : Tree) (p : Path) : Option Node := (t.find? fun e => e.1 = p).map Prod.snd

def put (t : Tree) (p : Path) (n : Node) : Tree := (p, n) :: t

def without (t : Tree) (gone : Path → Bool) : Tree := t.filter fun e => !gone e.1

def children (t : Tree) (p : Path) : List Name :=
  (t.filterMap fun e => if e.1.dropLast = p then e.1.getLast? else none).dedup

def remove (t : Tree) (p : Path) : Option Tree :=
  match t.node p with
  | none => none
  | some .dir => if t.children p = [] then some (t.without fun q => q = p) else none
  | some (.file _) => some (t.without fun q => q = p)

def removeAll (t : Tree) (p : Path) : Tree := t.without fun q => p.isPrefixOf q

def mkdir (t : Tree) (p : Path) : Option Tree :=
  match t.node p with
  | none => some (t.put p .dir)
  | some .dir => some t
  | some (.file _) => none

def mkdirAll (t : Tree) (p : Path) : Option Tree := p.inits.foldlM mkdir t

def writeFile (t : Tree) (p : Path) (content : List UInt8) : Option Tree :=
  match t.node p, t.node p.dropLast with
  | some .dir, _ => none
  | _, some .dir => some (t.put p (.file content))
  | _, _ => none

@[simp] theorem node_put (t : Tree) (p q : Path) (n : Node) :
    (t.put p n).node q = if p = q then some n else t.node q := by
  by_cases h : p = q <;> simp [node, put, h]

theorem node_without (t : Tree) (gone : Path → Bool) (p : Path) :
    (t.without gone).node p = if gone p then none else t.node p := by
  induction t with
  | nil => simp [node, without]
  | cons e t ih =>
    unfold node without at ih ⊢
    by_cases hp : e.1 = p
    · subst hp
      cases hg : gone e.1
      · simp [hg]
      · simpa [hg] using ih
    · cases hg : gone e.1
      all_goals simpa [hg, hp] using ih

variable {t : Tree} {p : Path}

theorem node_isSome : (t.node p).isSome ↔ ∃ n, (p, n) ∈ t := by
  unfold node
  rw [Option.isSome_map, List.find?_isSome]
  constructor
  · rintro ⟨⟨q, n⟩, he, hq⟩
    obtain rfl : q = p := by simpa using hq
    exact ⟨n, he⟩
  · rintro ⟨n, he⟩
    exact ⟨(p, n), he, by simp⟩

theorem mem_children {x : Name} : x ∈ t.children p ↔ (t.node (p ++ [x])).isSome := by
  rw [node_isSome, children, List.mem_dedup, List.mem_filterMap]
  constructor
  · rintro ⟨⟨q, n⟩, he, hx⟩
    split_ifs at hx with hp
    obtain ⟨init, rfl⟩ := List.getLast?_eq_some_iff.mp hx
    obtain rfl : init = p := by simpa using hp
    exact ⟨n, he⟩
  · rintro ⟨n, he⟩
    exact ⟨_, he, by simp⟩

def Closed (t : Tree) : Prop := ∀ p x, (t.node (p ++ [x])).isSome → t.node p = some .dir

theorem Closed.above (h : t.Closed) {q : Path} (hq : q ≠ []) (hn : (t.node (p ++ q)).isSome) :
    t.node p = some .dir := by
  induction q using List.reverseRecOn with
  | nil => exact absurd rfl hq
  | append_singleton q x ih =>
    rw [← List.append_assoc] at hn
    have hdir := h _ _ hn
    cases q with
    | nil => simpa using hdir
    | cons y q => exact ih (List.cons_ne_nil y q) (by rw [hdir]; rfl)

structure Loses (t t' : Tree) (gone : Path → Prop) : Prop where
  lost : ∀ p, gone p → t'.node p = none
  kept : ∀ p, ¬ gone p → t'.node p = t.node p

variable {t t' t'' : Tree} {p q : Path} {n : Node} {gone gone' : Path → Prop}

theorem Loses.refl (t : Tree) : Loses t t fun _ => False := ⟨fun _ h => h.elim, fun _ _ => rfl⟩

theorem Loses.trans (h : Loses t t' gone) (h' : Loses t' t'' gone') : Loses t t'' fun p => gone p ∨ gone' p := by
  constructor
  · rintro p hp
    by_cases hgone' : gone' p
    · exact h'.lost p hgone'
    · rw [h'.kept p hgone']
      exact h.lost p (hp.resolve_right hgone')
  · intro p hp
    rw [h'.kept p fun hg => hp (.inr hg), h.kept p fun hg => hp (.inl hg)]

theorem Loses.of_some (h : Loses t t' gone) (hn : t'.node p = some n) : t.node p = some n ∧ ¬ gone p := by
  by_cases hg : gone p
  · rw [h.lost p hg] at hn
    cases hn
  · exact ⟨(h.kept p hg).symm.trans hn, hg⟩

theorem Loses.closed (h : Loses t t' gone) (hclosed : t.Closed)
    (hdown : ∀ p x, gone p → (t.node (p ++ [x])).isSome → gone (p ++ [x])) : t'.Closed := by
  intro p x hx
  obtain ⟨n, hn⟩ := Option.isSome_iff_exists.mp hx
  obtain ⟨hnode, hkept⟩ := h.of_some hn
  have hsome : (t.node (p ++ [x])).isSome := by rw [hnode]; rfl
  rw [h.kept p fun hg => hkept (hdown p x hg hsome)]
  exact hclosed p x hsome

theorem without_loses (t : Tree) (gone : Path → Bool) : Loses t (t.without gone) fun p => gone p = true :=
  ⟨fun p hp => by rw [node_without, if_pos hp], fun p hp => by rw [node_without, if_neg hp]⟩

theorem removeAll_loses (t : Tree) (p : Path) : Loses t (t.removeAll p) fun q => p <+: q := by
  have h := without_loses t fun q => p.isPrefixOf q
  exact ⟨fun q hq => h.lost q (List.isPrefixOf_iff_prefix.mpr hq),
    fun q hq => h.kept q fun hp => hq (List.isPrefixOf_iff_prefix.mp hp)⟩

theorem removeAll_closed (h : t.Closed) (p : Path) : (t.removeAll p).Closed :=
  (removeAll_loses t p).closed h fun _ x hq _ => hq.trans (List.prefix_append _ [x])

theorem remove_loses (h : t.remove p = some t') :
    Loses t t' (fun q => q = p) ∧ (t.node p).isSome ∧ (t.node p = some .dir → t.children p = []) := by
  have hwithout : Loses t (t.without fun q => q = p) fun q => q = p := by
    have h := without_loses t fun q => q = p
    exact ⟨fun q hq => h.lost q (decide_eq_true hq), fun q hq => h.kept q fun hd => hq (of_decide_eq_true hd)⟩
  unfold remove at h
  cases hn : t.node p with
  | none => simp [hn] at h
  | some node =>
    cases node with
    | dir =>
      by_cases hempty : t.children p = []
      · rw [hn, if_pos hempty] at h
        obtain rfl := Option.some.inj h
        exact ⟨hwithout, rfl, fun _ => hempty⟩
      · simp [hn, hempty] at h
    | file content =>
      simp only [hn, Option.some.injEq] at h
      subst h
      exact ⟨hwithout, rfl, fun hdir => by cases hdir⟩

variable {content : List UInt8}

theorem remove_file (h : t.node p = some (.file content)) :
    ∃ t', t.remove p = some t' ∧ Loses t t' fun q => q = p := by
  have hr : t.remove p = some (t.without fun q => q = p) := by simp [remove, h]
  exact ⟨_, hr, (remove_loses hr).1⟩

theorem remove_closed (hclosed : t.Closed) (h : t.remove p = some t') : t'.Closed := by
  obtain ⟨hloses, -, hempty⟩ := remove_loses h
  refine hloses.closed hclosed ?_
  rintro q x rfl hx
  have hmem : x ∈ t.children q := mem_children.mpr hx
  rw [hempty (hclosed q x hx)] at hmem
  cases hmem

variable {t' : Tree}

theorem mkdir_node (h : t.mkdir p = some t') (q : Path) : t'.node q = if q = p then some .dir else t.node q := by
  unfold mkdir at h
  split at h
  · obtain rfl := Option.some.inj h
    rw [node_put]
    simp only [eq_comm]
  · rename_i hdir
    obtain rfl := Option.some.inj h
    split_ifs with hq
    · rw [hq, hdir]
    · rfl
  · cases h

theorem mkdirs_node {ps : List Path} (h : ps.foldlM mkdir t = some t') (q : Path) :
    t'.node q = if q ∈ ps then some .dir else t.node q := by
  induction ps generalizing t with
  | nil =>
    obtain rfl := Option.some.inj h
    simp
  | cons p ps ih =>
    obtain ⟨t₁, hfirst, hrest⟩ := Option.bind_eq_some_iff.mp h
    rw [ih hrest, mkdir_node hfirst]
    by_cases hps : q ∈ ps <;> by_cases hp : q = p <;> simp [hps, hp]

theorem mkdirAll_node (h : t.mkdirAll p = some t') (q : Path) :
    t'.node q = if q <+: p then some .dir else t.node q := by
  rw [mkdirs_node h q]
  simp only [List.mem_inits]

theorem mkdirAll_closed (hclosed : t.Closed) (h : t.mkdirAll p = some t') : t'.Closed := by
  intro q x hx
  rw [mkdirAll_node h] at hx ⊢
  by_cases hq : q <+: p
  · rw [if_pos hq]
  · rw [if_neg hq]
    rw [if_neg fun hqx => hq ((List.prefix_append q [x]).trans hqx)] at hx
    exact hclosed q x hx

theorem writeFile_node (h : t.writeFile p content = some t') : t.node p ≠ some .dir ∧ t.node p.dropLast = some .dir ∧
    ∀ q, t'.node q = if q = p then some (.file content) else t.node q := by
  unfold writeFile at h
  split at h
  · cases h
  · rename_i hdir hnot
    obtain rfl := Option.some.inj h
    refine ⟨hnot, hdir, fun q => ?_⟩
    rw [node_put]
    simp only [eq_comm]
  · cases h

theorem writeFile_closed (hclosed : t.Closed) (h : t.writeFile p content = some t') : t'.Closed := by
  obtain ⟨hnot, hdir, hnode⟩ := writeFile_node h
  intro q x hx
  have hold : t.node q = some .dir := by
    rw [hnode] at hx
    split_ifs at hx with hp
    · rw [← hp] at hdir
      simpa using hdir
    · exact hclosed q x hx
  have hne : q ≠ p := fun hq => hnot (hq ▸ hold)
  rw [hnode, if_neg hne]
  exact hold

end Tree

end CloudBurrow.FileTree
