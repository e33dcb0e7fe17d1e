import CloudBurrow.Codec.Base64
import CloudBurrow.Codec.JsonText
import CloudBurrow.Storage.Metastore

namespace CloudBurrow.LogRecord

open Utf8 JsonText Metastore

def crcBit (crc : UInt32) : UInt32 :=
  if crc &&& 1 = 1 then (crc >>> 1) ^^^ 0x82F63B78 else crc >>> 1

def crcByte (crc : UInt32) (b : UInt8) : UInt32 := crcBit^[8] (crc ^^^ b.toUInt32)

def crc32c (s : Bytes) : UInt32 := s.foldl crcByte 0xFFFFFFFF ^^^ 0xFFFFFFFF

def opJson (o : Op) : Json :=
  .obj ([(ascii "k", .str o.key)] ++
    (if o.value = [] then [] else [(ascii "v", .str (Base64.encode o.value))]) ++
    (if o.del then [(ascii "d", .bool true)] else []) ++
    (if o.append then [(ascii "a", .bool true)] else []))

def opsJson (ops : List Op) : Json := .arr (ops.map opJson)

def opsCRC (ops : List Op) : UInt32 := crc32c (encode (opsJson ops))

def recordJson (ops : List Op) : Json :=
  .obj [(ascii "ops", opsJson ops), (ascii "crc", .num (opsCRC ops).toNat)]

def line (ops : List Op) : Bytes := encode (recordJson ops) ++ [10]

def snapshotJson (m : Map) : Json := .obj (m.toList.map fun p => (p.1, .str (Base64.encode p.2)))

def member (name : Bytes) (members : List (Bytes × Json)) : Option Json :=
  (members.reverse.find? fun m => m.1 == name).map Prod.snd

def decodeString : Option Json → Option Bytes
  | none => some []
  | some .null => some []
  | some (.str s) => some s
  | _ => none

def decodeBytes : Option Json → Option Bytes
  | none => some []
  | some .null => some []
  | some (.str s) => Base64.decode s
  | _ => none

def decodeBool : Option Json → Option Bool
  | none => some false
  | some .null => some false
  | some (.bool b) => some b
  | _ => none

def decodeUint32 : Option Json → Option UInt32
  | none => some 0
  | some .null => some 0
  | some (.num n) => if 0 ≤ n ∧ n < 2 ^ 32 then some (UInt32.ofNat n.toNat) else none
  | _ => none

def decodeOp : Json → Option Op
  | .null => some ⟨[], [], false, false⟩
  | .obj ms => do
    let key ← decodeString (member (ascii "k") ms)
    let value ← decodeBytes (member (ascii "v") ms)
    let del ← decodeBool (member (ascii "d") ms)
    let append ← decodeBool (member (ascii "a") ms)
    some ⟨key, value, del, append⟩
  | _ => none

def decodeOps : Option Json → Option (List Op)
  | none => some []
  | some .null => some []
  | some (.arr items) => items.mapM decodeOp
  | _ => none

def decodeRecord : Json → Option (List Op × UInt32)
  | .null => some ([], 0)
  | .obj ms => do
    let ops ← decodeOps (member (ascii "ops") ms)
    let crc ← decodeUint32 (member (ascii "crc") ms)
    some (ops, crc)
  | _ => none

def decodeEntry (p : Bytes × Json) : Option (Bytes × Bytes) :=
  (decodeBytes (some p.2)).map fun v => (p.1, v)

def decodeSnapshot : Json → Option Map
  | .null => some ∅
  | .obj ms => (ms.mapM decodeEntry).map fun entries => Std.ExtTreeMap.ofList entries
  | _ => none

def readBytes : Bytes → Option (Bytes × Bytes)
  | [] => none
  | b :: t => if b = 10 then some ([b], t) else (readBytes t).map fun p => (b :: p.1, p.2)

def checked (text : Bytes) : Option (List Op) :=
  ((parse text).bind decodeRecord).bind fun r => if r.2 = opsCRC r.1 then some r.1 else none

def replay : Nat → Map → Bytes → Map × Nat
  | 0, m, _ => (m, 0)
  | n + 1, m, s =>
    match readBytes s with
    | none => (m, 0)
    | some (text, rest) =>
      match checked text with
      | none => (m, 0)
      | some ops =>
        let r := replay n (apply m ops) rest
        (r.1, text.length + r.2)

def ValidKeys (ops : List Op) : Prop := ∀ o ∈ ops, Valid o.key

theorem toValid_base64 (v : Bytes) : toValid (Base64.encode v) = Base64.encode v :=
  toValid_of_valid _ (valid_ascii _ (Base64.encode_ascii v))

theorem decodeOp_clean (o : Op) :
    decodeOp (clean (opJson o)) = some ⟨toValid o.key, o.value, o.del, o.append⟩ := by
  obtain ⟨key, value, del, append⟩ := o
  have hk : toValid [107] = [107] := rfl
  have hv : toValid [118] = [118] := rfl
  have hd : toValid [100] = [100] := rfl
  have ha : toValid [97] = [97] := rfl
  by_cases hvalue : value = [] <;> cases del <;> cases append <;>
    simp [opJson, clean, cleanMembers, hvalue, hk, hv, hd, ha, decodeOp, member, ascii,
      decodeString, decodeBytes, decodeBool, toValid_base64, Base64.decode_encode]

theorem mapM_decodeOp_clean (ops : List Op) : (ops.map fun o => clean (opJson o)).mapM decodeOp =
      some (ops.map fun o => ⟨toValid o.key, o.value, o.del, o.append⟩) := by
  induction ops with
  | nil => rfl
  | cons o ops ih =>
    rw [List.map_cons, List.mapM_cons, decodeOp_clean, ih]
    rfl

theorem decodeRecord_line (ops : List Op) : (parse (line ops)).bind decodeRecord =
      some (ops.map (fun o => ⟨toValid o.key, o.value, o.del, o.append⟩), opsCRC ops) := by
  have hparse : parse (line ops) = some (clean (recordJson ops)) := parse_encode _ (by simp [blank])
  have hops : toValid [111, 112, 115] = [111, 112, 115] := rfl
  have hcrc : toValid [99, 114, 99] = [99, 114, 99] := rfl
  have hlt : (opsCRC ops).toNat < 4294967296 := UInt32.toNat_lt _
  have hitems : (cleanItems (ops.map opJson)).mapM decodeOp =
      some (ops.map fun o => ⟨toValid o.key, o.value, o.del, o.append⟩) := by
    rw [cleanItems_eq_map, List.map_map]
    exact mapM_decodeOp_clean ops
  rw [hparse]
  simp [recordJson, opsJson, clean, cleanMembers, hops, hcrc, decodeRecord, member, ascii,
    decodeOps, decodeUint32, hlt, hitems]

theorem checked_line {ops : List Op} (h : ValidKeys ops) : checked (line ops) = some ops := by
  have hsame : ops.map (fun o => (⟨toValid o.key, o.value, o.del, o.append⟩ : Op)) = ops := by
    refine (List.map_congr_left fun o ho => ?_).trans (List.map_id ops)
    rw [toValid_of_valid _ (h o ho)]
    rfl
  rw [checked, decodeRecord_line, hsame, Option.bind_some, if_pos rfl]

theorem readBytes_append {s : Bytes} (h : (10 : UInt8) ∉ s) (rest : Bytes) :
    readBytes (s ++ 10 :: rest) = some (s ++ [10], rest) := by
  induction s with
  | nil => rfl
  | cons b t ih =>
    obtain ⟨hb, ht⟩ := not_or.mp fun hmem => h (List.mem_cons.mpr hmem)
    simp [readBytes, ih ht, Ne.symm hb]

theorem readBytes_torn {s : Bytes} (h : (10 : UInt8) ∉ s) : readBytes s = none := by
  induction s with
  | nil => rfl
  | cons b t ih =>
    obtain ⟨hb, ht⟩ := not_or.mp fun hmem => h (List.mem_cons.mpr hmem)
    simp [readBytes, ih ht, Ne.symm hb]

theorem readBytes_line (ops : List Op) (rest : Bytes) :
    readBytes (line ops ++ rest) = some (line ops, rest) := by
  have h := readBytes_append (newline_not_mem_encode (recordJson ops)) rest
  simpa [line] using h

def logText (txs : List (List Op)) : Bytes := txs.flatMap line

theorem replay_logText (txs : List (List Op)) (h : ∀ ops ∈ txs, ValidKeys ops) (n : Nat) (m : Map)
    (torn : Bytes) (ht : (10 : UInt8) ∉ torn) (hn : txs.length < n) :
    replay n m (logText txs ++ torn) = (apply m txs.flatten, (logText txs).length) := by
  induction txs generalizing n m with
  | nil =>
    obtain ⟨k, rfl⟩ := Nat.exists_eq_add_one_of_ne_zero (Nat.ne_of_gt (Nat.zero_lt_of_lt hn))
    simp [logText, replay, readBytes_torn ht, apply]
  | cons ops txs ih =>
    obtain ⟨hops, htxs⟩ := List.forall_mem_cons.mp h
    obtain ⟨k, rfl⟩ := Nat.exists_eq_add_one_of_ne_zero (Nat.ne_of_gt (Nat.zero_lt_of_lt hn))
    have hrest := ih htxs k (apply m ops) (by simpa using hn)
    simp only [logText] at hrest
    simp [logText, replay, List.append_assoc, readBytes_line, checked_line hops, hrest, apply_append]

theorem mapM_decodeEntry (entries : List (Bytes × Bytes)) (h : ∀ p ∈ entries, Valid p.1) :
    (entries.map fun p => (toValid p.1, clean (.str (Base64.encode p.2)))).mapM decodeEntry =
      some entries := by
  induction entries with
  | nil => rfl
  | cons p entries ih =>
    obtain ⟨hp, hentries⟩ := List.forall_mem_cons.mp h
    have hhead : decodeEntry (toValid p.1, clean (.str (Base64.encode p.2))) = some p := by
      simp [clean, decodeEntry, decodeBytes, toValid_base64, Base64.decode_encode, toValid_of_valid _ hp]
    rw [List.map_cons, List.mapM_cons, hhead, ih hentries]
    rfl

theorem ofList_toList (m : Map) : Std.ExtTreeMap.ofList m.toList = m := by
  refine Std.ExtTreeMap.ext_getElem? fun k => ?_
  cases hk : m[k]? with
  | some v =>
    exact Std.ExtTreeMap.getElem?_ofList_of_mem (by simp) Std.ExtTreeMap.distinct_keys_toList
      (Std.ExtTreeMap.mem_toList_iff_getElem?_eq_some.mpr hk)
  | none =>
    refine Std.ExtTreeMap.getElem?_ofList_of_contains_eq_false ?_
    simpa [Std.ExtTreeMap.map_fst_toList_eq_keys] using hk

def ValidMap (m : Map) : Prop := ∀ k ∈ m, Valid k

theorem decodeSnapshot_text {m : Map} (h : ValidMap m) :
    (parse (encode (snapshotJson m))).bind decodeSnapshot = some m := by
  have hparse : parse (encode (snapshotJson m)) = some (clean (snapshotJson m)) := by
    simpa using parse_encode (snapshotJson m) (t := []) (by simp)
  have hkeys : ∀ p ∈ m.toList, Valid p.1 := fun p hp =>
    h p.1 (Std.ExtTreeMap.mem_iff_isSome_getElem?.mpr
      (by simp [Std.ExtTreeMap.mem_toList_iff_getElem?_eq_some.mp hp]))
  have hentries := mapM_decodeEntry m.toList hkeys
  rw [hparse, Option.bind_some, snapshotJson, clean, cleanMembers_eq_map, List.map_map, decodeSnapshot]
  simp only [Function.comp_def]
  rw [hentries, Option.map_some, ofList_toList]

theorem validMap_applyOp {m : Map} {o : Op} (hm : ValidMap m) (ho : Valid o.key) :
    ValidMap (applyOp m o) := by
  intro k hk
  unfold applyOp at hk
  split_ifs at hk
  · exact hm k (Std.ExtTreeMap.mem_erase.mp hk).2
  all_goals
    rcases Std.ExtTreeMap.mem_insert.mp hk with heq | hmem
    · rwa [← Std.compare_eq_iff_eq.mp heq]
    · exact hm k hmem

theorem validMap_apply (ops : List Op) {m : Map} (hm : ValidMap m) (h : ValidKeys ops) :
    ValidMap (apply m ops) := by
  induction ops generalizing m with
  | nil => exact hm
  | cons o ops ih =>
    obtain ⟨ho, hops⟩ := List.forall_mem_cons.mp h
    exact ih (validMap_applyOp hm ho) hops

end CloudBurrow.LogRecord
