import CloudBurrow.Codec.ParseInt

namespace CloudBurrow.JsonDoc
open Utf8 JsonText

structure Exponent where
  upper : Bool
  sign : Option Bool
  digits : List (Fin 10)
  written : digits ≠ []
deriving DecidableEq

structure Number where
  negative : Bool
  whole : Nat
  fraction : List (Fin 10)
  exponent : Option Exponent
deriving DecidableEq

def digitText (d : Fin 10) : UInt8 := UInt8.ofNat (48 + d)

def Exponent.text (e : Exponent) : Bytes :=
  let mark : UInt8 := if e.upper then 69 else 101
  let sign : Bytes := match e.sign with
    | none => []
    | some true => [45]
    | some false => [43]
  mark :: sign ++ e.digits.map digitText

def Exponent.value (e : Exponent) : Int :=
  let n : Int := Nat.ofDigits 10 (e.digits.map Fin.val).reverse
  if e.sign = some true then -n else n

namespace Number

def unsignedText (x : Number) : Bytes :=
  decimal x.whole ++ (if x.fraction = [] then [] else 46 :: x.fraction.map digitText) ++
    (x.exponent.map Exponent.text).getD []

def text (x : Number) : Bytes := if x.negative then 45 :: x.unsignedText else x.unsignedText

def value (x : Number) : ℚ :=
  let mantissa : ℚ := x.whole +
    (Nat.ofDigits 10 (x.fraction.map Fin.val).reverse : ℚ) / 10 ^ x.fraction.length
  (if x.negative then -1 else 1) * mantissa * 10 ^ ((x.exponent.map Exponent.value).getD 0)

end Number

inductive Doc where
  | null : Doc
  | bool : Bool → Doc
  | num : Number → Doc
  | str : Bytes → Doc
  | arr : List Doc → Doc
  | obj : List (Bytes × Doc) → Doc

abbrev Members := List (Bytes × Doc)

namespace Members

def get : Members → Bytes → Option Doc
  | [], _ => none
  | (k', v) :: m, k => if k = k' then some v else get m k

def set : Members → Bytes → Doc → Members
  | [], k, v => [(k, v)]
  | (k', v') :: m, k, v => if k = k' then (k, v) :: m else (k', v') :: set m k v

def delete (m : Members) (k : Bytes) : Members := m.filter fun e => e.1 ≠ k

theorem get_set (m : Members) (k k' : Bytes) (v : Doc) :
    (m.set k v).get k' = if k' = k then some v else m.get k' := by
  induction m with
  | nil => simp [set, get]
  | cons e m ih =>
    obtain ⟨j, w⟩ := e
    by_cases hj : k = j
    · subst hj
      by_cases hk : k' = k <;> simp [set, get, hk]
    · by_cases hk : k' = k
      · subst hk
        simp only [if_pos] at ih
        simp [set, get, hj, ih]
      · simp only [hk, if_false] at ih ⊢
        simp [set, get, hj, ih]

theorem get_delete (m : Members) (k k' : Bytes) :
    (m.delete k).get k' = if k' = k then none else m.get k' := by
  unfold delete
  induction m with
  | nil => simp [get]
  | cons e m ih =>
    obtain ⟨j, w⟩ := e
    by_cases hj : j = k
    · subst hj
      rw [List.filter_cons_of_neg (by simp), ih]
      by_cases hk : k' = j <;> simp [get, hk]
    · rw [List.filter_cons_of_pos (by simpa using hj), get, get, ih]
      by_cases hk : k' = j
      · subst hk
        simp [hj]
      · simp [hk]

theorem get_eq_none {m : Members} {k : Bytes} (h : k ∉ m.map Prod.fst) : m.get k = none := by
  induction m with
  | nil => rfl
  | cons e m ih =>
    simp only [List.map_cons, List.mem_cons, not_or] at h
    rw [get, if_neg h.1, ih h.2]

end Members

namespace Doc

def members : Doc → Members
  | obj m => m
  | _ => []

mutual

def Distinct : Doc → Prop
  | arr items => DistinctItems items
  | obj m => (m.map Prod.fst).Nodup ∧ DistinctMembers m
  | _ => True

def DistinctItems : List Doc → Prop
  | [] => True
  | v :: vs => Distinct v ∧ DistinctItems vs

def DistinctMembers : List (Bytes × Doc) → Prop
  | [] => True
  | (_, v) :: m => Distinct v ∧ DistinctMembers m

end

end Doc

inductive Tree where
  | null : Tree
  | bool : Bool → Tree
  | num : Number → Tree
  | str : Bytes → Tree
  | arr : List Tree → Tree
  | obj : (Bytes → Option Tree) → Tree

namespace Tree

def fields : Tree → Bytes → Option Tree
  | obj f => f
  | _ => fun _ => none

mutual

def mergePatch (target : Tree) : Tree → Tree
  | null => null
  | bool b => bool b
  | num x => num x
  | str s => str s
  | arr items => arr items
  | obj patch => obj fun k => mergeMember (target.fields k) (patch k)

def mergeMember (target : Option Tree) : Option Tree → Option Tree
  | none => target
  | some null => none
  | some v => some (mergePatch (target.getD null) v)

end

@[simp] theorem fields_obj (f : Bytes → Option Tree) : (obj f).fields = f := rfl

mutual

theorem mergePatch_idem (target : Tree) :
    (patch : Tree) → mergePatch (mergePatch target patch) patch = mergePatch target patch
  | null => rfl
  | bool _ => rfl
  | num _ => rfl
  | str _ => rfl
  | arr _ => rfl
  | obj patch => by
    simp only [mergePatch, fields_obj, obj.injEq]
    exact funext fun k => mergeMember_idem (target.fields k) (patch k)

theorem mergeMember_idem (target : Option Tree) : (patch : Option Tree) →
    mergeMember (mergeMember target patch) patch = mergeMember target patch
  | none => rfl
  | some null => rfl
  | some (bool _) => rfl
  | some (num _) => rfl
  | some (str _) => rfl
  | some (arr _) => rfl
  | some (obj patch) => by
    simp only [mergeMember, Option.getD_some, Option.some.injEq]
    exact mergePatch_idem (target.getD null) (obj patch)

end

end Tree

namespace Doc

mutual

def denote : Doc → Tree
  | null => .null
  | bool b => .bool b
  | num x => .num x
  | str s => .str s
  | arr items => .arr (denoteItems items)
  | obj m => .obj (denoteMembers m)

def denoteItems : List Doc → List Tree
  | [] => []
  | v :: vs => denote v :: denoteItems vs

def denoteMembers : List (Bytes × Doc) → Bytes → Option Tree
  | [], _ => none
  | (k', v) :: m, k => if k = k' then some (denote v) else denoteMembers m k

end

theorem denoteMembers_eq (m : Members) (k : Bytes) : denoteMembers m k = (m.get k).map denote := by
  induction m with
  | nil => rfl
  | cons e m ih =>
    rw [denoteMembers, Members.get, ih]
    split_ifs <;> rfl

end Doc

end CloudBurrow.JsonDoc
