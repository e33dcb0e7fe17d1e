import CloudBurrow.Codec.Utf8

namespace CloudBurrow.Metastore

open Utf8

abbrev Map := Std.ExtTreeMap Bytes Bytes

structure Op where
  key : Bytes
  value : Bytes
  del : Bool
  append : Bool
deriving DecidableEq

def spaces : List Bytes :=
  [[9], [10], [11], [12], [13], [32], [0xC2, 0x85], [0xC2, 0xA0], [0xE1, 0x9A, 0x80],
    [0xE2, 0x80, 0x80], [0xE2, 0x80, 0x81], [0xE2, 0x80, 0x82], [0xE2, 0x80, 0x83],
    [0xE2, 0x80, 0x84], [0xE2, 0x80, 0x85], [0xE2, 0x80, 0x86], [0xE2, 0x80, 0x87],
    [0xE2, 0x80, 0x88], [0xE2, 0x80, 0x89], [0xE2, 0x80, 0x8A], [0xE2, 0x80, 0xA8],
    [0xE2, 0x80, 0xA9], [0xE2, 0x80, 0xAF], [0xE2, 0x81, 0x9F], [0xE3, 0x80, 0x80]]

def trimLeftSpace : Nat → Bytes → Bytes
  | 0, s => s
  | n + 1, s =>
    match spaces.find? fun w => w.isPrefixOf s with
    | some w => trimLeftSpace n (s.drop w.length)
    | none => s

def trimRightSpace : Nat → Bytes → Bytes
  | 0, s => s
  | n + 1, s =>
    match spaces.find? fun w => w.isSuffixOf s with
    | some w => trimRightSpace n (s.take (s.length - w.length))
    | none => s

def trimSpace (s : Bytes) : Bytes := trimRightSpace s.length (trimLeftSpace s.length s)

def trimOpen (s : Bytes) : Bytes := if s.head? = some 91 then s.tail else s

def trimClose (s : Bytes) : Bytes := if s.getLast? = some 93 then s.dropLast else s

def appendJSON (arr elem : Bytes) : Bytes :=
  let arr := arr.rdropWhile fun b => b == 32 || b == 9 || b == 13 || b == 10
  let inner := trimSpace (trimClose (trimOpen (trimSpace arr)))
  if inner = [] then 91 :: elem ++ [93] else arr.dropLast ++ 44 :: elem ++ [93]

structure MemTx where
  base : Map
  writes : Std.ExtTreeMap Bytes (Option Bytes)
  ordered : List Op

namespace MemTx

def get (t : MemTx) (key : Bytes) : Option Bytes :=
  match t.writes[key]? with
  | some v => v
  | none => t.base[key]?

def put (t : MemTx) (key value : Bytes) : MemTx :=
  { t with
    writes := t.writes.insert key (some value)
    ordered := t.ordered ++ [⟨key, value, false, false⟩] }

def append (t : MemTx) (key elem : Bytes) : MemTx :=
  { t with
    writes := t.writes.insert key (some (appendJSON ((t.get key).getD []) elem))
    ordered := t.ordered ++ [⟨key, elem, false, true⟩] }

def delete (t : MemTx) (key : Bytes) : MemTx :=
  { t with
    writes := t.writes.insert key none
    ordered := t.ordered ++ [⟨key, [], true, false⟩] }

end MemTx

inductive Write where
  | put (key value : Bytes)
  | append (key elem : Bytes)
  | delete (key : Bytes)
deriving DecidableEq

def Write.key : Write → Bytes
  | .put key _ => key
  | .append key _ => key
  | .delete key => key

def Write.op : Write → Op
  | .put key value => ⟨key, value, false, false⟩
  | .append key elem => ⟨key, elem, false, true⟩
  | .delete key => ⟨key, [], true, false⟩

def MemTx.write (t : MemTx) : Write → MemTx
  | .put key value => t.put key value
  | .append key elem => t.append key elem
  | .delete key => t.delete key

def MemTx.run (base : Map) (fn : List Write) : MemTx := fn.foldl MemTx.write ⟨base, ∅, []⟩

def applyOp (m : Map) (o : Op) : Map :=
  if o.del then m.erase o.key
  else if o.append then m.insert o.key (appendJSON ((m[o.key]?).getD []) o.value)
  else m.insert o.key o.value

def apply (m : Map) (ops : List Op) : Map := ops.foldl applyOp m

def commitOne (acc : Map × Int) (w : Bytes × Option Bytes) : Map × Int :=
  let delta := match acc.1[w.1]? with
    | some old => acc.2 - ((w.1.length + old.length : Nat) : Int)
    | none => acc.2
  match w.2 with
  | none => (acc.1.erase w.1, delta)
  | some v => (acc.1.insert w.1 v, delta + ((w.1.length + v.length : Nat) : Int))

def commit (m : Map) (writes : Std.ExtTreeMap Bytes (Option Bytes)) : Map × Int :=
  writes.toList.foldl commitOne (m, 0)

theorem commitOne_same (acc : Map × Int) (key : Bytes) (v : Option Bytes) :
    (commitOne acc (key, v)).1[key]? = v := by
  cases v <;> simp [commitOne]

theorem commitOne_other {key k : Bytes} (h : key ≠ k) (acc : Map × Int) (v : Option Bytes) :
    (commitOne acc (key, v)).1[k]? = acc.1[k]? := by
  cases v <;> simp [commitOne, Std.ExtTreeMap.getElem?_insert, Std.ExtTreeMap.getElem?_erase, h]

theorem foldl_commitOne_absent {k : Bytes} (ws : List (Bytes × Option Bytes)) (acc : Map × Int)
    (h : ∀ w ∈ ws, w.1 ≠ k) : (ws.foldl commitOne acc).1[k]? = acc.1[k]? := by
  induction ws generalizing acc with
  | nil => rfl
  | cons w ws ih =>
    obtain ⟨hw, hws⟩ := List.forall_mem_cons.mp h
    rw [List.foldl_cons, ih _ hws]
    exact commitOne_other hw acc w.2

theorem foldl_commitOne_present {k : Bytes} {v : Option Bytes} (ws : List (Bytes × Option Bytes))
    (acc : Map × Int) (hd : ws.Pairwise fun a b => a.1 ≠ b.1) (h : (k, v) ∈ ws) :
    (ws.foldl commitOne acc).1[k]? = v := by
  induction ws generalizing acc with
  | nil => exact absurd h (by simp)
  | cons w ws ih =>
    obtain ⟨hw, hws⟩ := List.pairwise_cons.mp hd
    rcases List.mem_cons.mp h with rfl | hmem
    · rw [List.foldl_cons, foldl_commitOne_absent ws _ fun x hx => (hw x hx).symm]
      exact commitOne_same acc k v
    · exact ih _ hws hmem

theorem commit_get (m : Map) (writes : Std.ExtTreeMap Bytes (Option Bytes)) (k : Bytes) :
    (commit m writes).1[k]? = match writes[k]? with
      | some v => v
      | none => m[k]? := by
  have hd : writes.toList.Pairwise fun a b => a.1 ≠ b.1 :=
    Std.ExtTreeMap.distinct_keys_toList.imp fun h heq => h (by simp [heq])
  cases hk : writes[k]? with
  | some v =>
    exact foldl_commitOne_present _ _ hd (Std.ExtTreeMap.mem_toList_iff_getElem?_eq_some.mpr hk)
  | none =>
    refine foldl_commitOne_absent _ _ fun w hw hwk => ?_
    have hsome := Std.ExtTreeMap.mem_toList_iff_getElem?_eq_some.mp hw
    rw [hwk, hk] at hsome
    exact absurd hsome (by simp)

def MemTx.Tracks (t : MemTx) : Prop := ∀ k, t.get k = (apply t.base t.ordered)[k]?

theorem apply_append (m : Map) (ops more : List Op) : apply m (ops ++ more) = apply (apply m ops) more :=
  List.foldl_append

theorem MemTx.get_insert (t : MemTx) (key k : Bytes) (v : Option Bytes) (ops : List Op) :
    MemTx.get ⟨t.base, t.writes.insert key v, ops⟩ k = if key = k then v else t.get k := by
  simp only [MemTx.get, Std.ExtTreeMap.getElem?_insert, Std.compare_eq_iff_eq]
  split_ifs <;> rfl

theorem MemTx.tracks_write {t : MemTx} (h : t.Tracks) (w : Write) : (t.write w).Tracks := by
  intro k
  cases w with
  | put key value =>
    simp only [MemTx.write, MemTx.put, MemTx.get_insert, apply_append, h k]
    simp [apply, applyOp, Std.ExtTreeMap.getElem?_insert]
  | append key elem =>
    simp only [MemTx.write, MemTx.append, MemTx.get_insert, apply_append, h k, h key]
    simp [apply, applyOp, Std.ExtTreeMap.getElem?_insert]
  | delete key =>
    simp only [MemTx.write, MemTx.delete, MemTx.get_insert, apply_append, h k]
    simp [apply, applyOp, Std.ExtTreeMap.getElem?_erase]

theorem MemTx.base_write (t : MemTx) (w : Write) : (t.write w).base = t.base := by
  cases w <;> rfl

theorem MemTx.ordered_write (t : MemTx) (w : Write) : (t.write w).ordered = t.ordered ++ [w.op] := by
  cases w <;> rfl

theorem MemTx.foldl_write (fn : List Write) (t : MemTx) (h : t.Tracks) :
    (fn.foldl MemTx.write t).Tracks ∧ (fn.foldl MemTx.write t).base = t.base ∧
      (fn.foldl MemTx.write t).ordered = t.ordered ++ fn.map Write.op := by
  induction fn generalizing t with
  | nil => exact ⟨h, rfl, by simp⟩
  | cons w fn ih =>
    obtain ⟨htracks, hbase, hordered⟩ := ih _ (MemTx.tracks_write h w)
    refine ⟨htracks, hbase.trans (MemTx.base_write t w), ?_⟩
    rw [List.foldl_cons, hordered, MemTx.ordered_write]
    simp

theorem MemTx.tracks_run (base : Map) (fn : List Write) : (MemTx.run base fn).Tracks :=
  (MemTx.foldl_write fn ⟨base, ∅, []⟩ fun k => by simp [MemTx.get, apply]).1

theorem MemTx.base_run (base : Map) (fn : List Write) : (MemTx.run base fn).base = base :=
  (MemTx.foldl_write fn ⟨base, ∅, []⟩ fun k => by simp [MemTx.get, apply]).2.1

theorem MemTx.ordered_run (base : Map) (fn : List Write) : (MemTx.run base fn).ordered = fn.map Write.op :=
  (MemTx.foldl_write fn ⟨base, ∅, []⟩ fun k => by simp [MemTx.get, apply]).2.2

theorem commit_eq_apply (base : Map) (fn : List Write) :
    (commit base (MemTx.run base fn).writes).1 = apply base (fn.map Write.op) := by
  refine Std.ExtTreeMap.ext_getElem? fun k => ?_
  have h := MemTx.tracks_run base fn k
  rw [MemTx.base_run, MemTx.ordered_run] at h
  rw [commit_get, ← h, MemTx.get, MemTx.base_run]

end CloudBurrow.Metastore
